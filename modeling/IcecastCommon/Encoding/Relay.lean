import IcecastCommon.Encoding.Complete
import IcecastCommon.Encoding.Encoder
import IcecastCommon.Encoding.Listener

/-!
# From one end to the other

A writer and a reader with a channel between them. Their calls come in any order, the channel takes
and hands over as much as it likes, and what the reader has is the front of what the writer sent.
-/

namespace Encoding

open Lib

/-! ## What was sent -/

/-- What a write put into a frame: the metadata, and the data. One without data ends the stream. -/
abbrev Post := List Pair × Bytes

namespace Post

def text (p : Post) : Bytes :=
  hex p.2.length ++ extensions p.1 ++ crlf ++ p.2 ++ if p.2 = [] then crlf ++ crlf else crlf

/-- The metadata can be restored, and the data is no longer than a chunk may be. -/
structure Valid (p : Post) : Prop where
  restored : ∀ x ∈ p.1, Restored x
  small : p.2.length ≤ 1048576

end Post

def sent_text (posts : List Post) : Bytes := posts.flatMap Post.text

/-- The data up to the end of the stream. -/
def said : List Post → Bytes
  | [] => []
  | p :: posts => if p.2 = [] then [] else p.2 ++ said posts

/-- The metadata up to the end of the stream. -/
def announced : List Post → List Pair
  | [] => []
  | p :: posts => p.1 ++ if p.2 = [] then [] else announced posts

/-- The stream was ended. -/
def Over (posts : List Post) : Prop := ∃ p ∈ posts, p.2 = []

/-- The chunk that a post is sent as. -/
def Post.chunk (p : Post) (h : p.2.length ≤ 1048576) : Chunk where
  digits := hex p.2.length
  body := p.2
  digits_ne_nil := hex_ne_nil _
  hexadecimal := hex_digits _
  size := hexNat_hex _
  small := by omega

def Post.parcel (p : Post) (h : p.Valid) : Parcel := ⟨p.chunk h.small, p.1, h.restored⟩

theorem sent_text_wire {posts : List Post} (hvalid : ∀ p ∈ posts, p.Valid) (hover : Over posts) :
    ∃ cs further, sent_text posts = wire further cs ∧ cs ≠ [] ∧ Sealed cs ∧
      payload cs = said posts ∧
      news cs = announced posts := by
  induction posts with
  | nil =>
    obtain ⟨p, hp, -⟩ := hover
    exact absurd hp (by simp)
  | cons p posts ih =>
    have hp := hvalid p (by simp)
    by_cases hlast : p.2 = []
    · refine ⟨[p.parcel hp], crlf ++ sent_text posts, ?_, by simp, ?_, ?_, ?_⟩
      · simp [sent_text, Post.text, wire, Post.parcel, Post.chunk, Parcel.line,
          Parcel.header, hlast]
      · exact ⟨iff_of_true hlast rfl, trivial⟩
      · simp [payload, Post.parcel, Post.chunk, said, hlast]
      · simp [news, Post.parcel, announced, hlast]
    · obtain ⟨cs, further, htext, hne, hends, hpayload, hnews⟩ :=
        ih (fun q hq => hvalid q (List.mem_cons_of_mem p hq)) (by
        obtain ⟨q, hq, hnil⟩ := hover
        rcases List.mem_cons.mp hq with rfl | hq
        · exact absurd hnil hlast
        · exact ⟨q, hq, hnil⟩)
      refine ⟨p.parcel hp :: cs, further, ?_, by simp, ?_, ?_, ?_⟩
      · rw [sent_text, List.flatMap_cons, ← sent_text, htext]
        simp [Post.text, wire, Post.parcel, Post.chunk, Parcel.line, Parcel.header, hlast]
      · exact ⟨iff_of_false hlast hne, hends⟩
      · simp only [said, if_neg hlast, ← hpayload]
        rfl
      · simp only [announced, if_neg hlast, ← hnews]
        rfl

/-- The end of a stream that was not ended yet. -/
def ending : Post := ([], [])

theorem ending_valid : ending.Valid := ⟨by simp [ending], by simp [ending]⟩

theorem over_ending (posts more : List Post) : Over (posts ++ more ++ [ending]) :=
  ⟨ending, by simp, rfl⟩

theorem said_ending (posts : List Post) : said (posts ++ [ending]) = said posts := by
  induction posts with
  | nil => rfl
  | cons p posts ih => rw [List.cons_append, said, said, ih]

theorem announced_ending (posts : List Post) : announced (posts ++ [ending]) = announced posts := by
  induction posts with
  | nil => rfl
  | cons p posts ih => rw [List.cons_append, announced, announced, ih]

theorem said_further {posts : List Post} (h : ¬ Over posts) (x : Byte) :
    said (posts ++ [([], [x])] ++ [ending]) ≠ said (posts ++ [ending]) := by
  induction posts with
  | nil => simp [said, ending]
  | cons p posts ih =>
    have hp : p.2 ≠ [] := fun hnil => h ⟨p, by simp, hnil⟩
    have hrest : ¬ Over posts := fun ⟨q, hq, hnil⟩ => h ⟨q, List.mem_cons_of_mem p hq, hnil⟩
    simp only [List.cons_append, said, if_neg hp]
    exact fun heq => ih hrest (List.append_cancel_left heq)

/-! ## The channel -/

variable {σ : Type}

/-- What is sent is handed over in order, at any pace. `sent` are all bytes that were taken from
the writer, of which the first `taken` went to the reader. -/
structure Channel (send : WriteCallback σ) (recv : ReadCallback σ) (sent : σ → Bytes)
    (taken : σ → Nat) : Prop where
  accepts : Accepts send sent
  send_taken : ∀ s data, taken (send s data).2 = taken s
  recv_sent : ∀ s n, sent (recv s n).2 = sent s
  within : ∀ s n, (recv s n).1.2.length ≤ n
  recv_step : ∀ s n,
    (((recv s n).1.1 = 0 ∨ (recv s n).1.1 = -1) ∧ taken (recv s n).2 = taken s) ∨
    ((recv s n).1.2 ≠ [] ∧ (recv s n).1.1 = (recv s n).1.2.length ∧
      (recv s n).1.2 <+: (sent s).drop (taken s) ∧
      taken (recv s n).2 = taken s + (recv s n).1.2.length)

/-- What is still to come of `goal`, if that is what is being sent. -/
def coming (sent : σ → Bytes) (taken : σ → Nat) (goal : Bytes) (s : σ) : Bytes :=
  if sent s <+: goal then goal.drop (taken s) else (sent s).drop (taken s)

section Channel

variable {send : WriteCallback σ} {recv : ReadCallback σ} {sent : σ → Bytes} {taken : σ → Nat}

theorem drop_taken {data l : Bytes} {n : Nat} (h : data <+: l.drop n) :
    l.drop n = data ++ l.drop (n + data.length) := by
  rw [← List.drop_drop]
  exact (List.prefix_iff_eq_append.mp h).symm

theorem Channel.feeds (h : Channel send recv sent taken) (goal : Bytes) :
    Feeds recv (coming sent taken goal) := by
  refine ⟨h.within, fun s n => ?_⟩
  have hsent := h.recv_sent s n
  rcases h.recv_step s n with ⟨hret, htaken⟩ | ⟨hsome, hret, hfront, htaken⟩
  · exact .inl ⟨hret, by rw [coming, coming, hsent, htaken]⟩
  · refine .inr ⟨hsome, hret, ?_⟩
    rw [coming, coming, hsent, htaken]
    by_cases hgoal : sent s <+: goal
    · rw [if_pos hgoal, if_pos hgoal]
      exact drop_taken (hfront.trans (hgoal.drop _))
    · rw [if_neg hgoal, if_neg hgoal]
      exact drop_taken hfront

end Channel

/-! ### What the calls do to the channel -/

theorem receive_user {cb : ReadCallback σ} {P : σ → Prop} (hcb : ∀ s n, P s → P (cb s n).2) {s : σ}
    (hs : P s) (n : Nat) :
    Yields (receive cb s n) fun r => P r.2 := by
  unfold receive
  exact yields_ite (fun _ => yields_ok (hcb s n hs)) fun _ => yields_error _

theorem enc_chunked_read_user {cb : ReadCallback σ} {P : σ → Prop} (hcb : ∀ s n, P s → P (cb s n).2)
    (self : httpp_encoding_t) (len : Nat) {s : σ} (hs : P s) :
    Yields (enc_chunked_read self len (some cb) s) fun r => P r.2.2.2 := by
  unfold enc_chunked_read
  refine yields_ite (fun _ => ?_) fun _ => ?_
  · refine (receive_user hcb hs _).bind ?_
    rintro ⟨⟨ret, data⟩, user⟩ huser
    exact yields_ite (fun _ => yields_ok huser) fun _ => yields_ok huser
  · refine yields_ite (fun _ => yields_ok hs) fun _ => yields_bind fun raw _ =>
      (receive_user hcb hs _).bind ?_
    rintro ⟨⟨ret, data⟩, user⟩ huser
    refine yields_ite (fun _ => yields_ok huser) fun _ => yields_bind ?_
    rintro ⟨ret', self'⟩ -
    exact yields_ok huser

theorem httpp_encoding_read_user {cb : ReadCallback σ} {P : σ → Prop}
    (hcb : ∀ s n, P s → P (cb s n).2) {self : httpp_encoding_t} (hchunked : self.process = .chunked)
    (len : Nat) {s : σ} (hs : P s) :
    Yields (httpp_encoding_read self len (some cb) s) fun r => P r.2.2.2 := by
  unfold httpp_encoding_read
  refine yields_ite (fun _ => yields_ok hs) fun _ => yields_bind ?_
  rintro ⟨ret, copied, self'⟩ hcopy
  have hchunked' : self'.process = .chunked := by
    unfold copy_decoded at hcopy
    obtain ⟨r, -, hcopy⟩ := bind_eq_ok.mp hcopy
    cases hcopy
    exact hchunked
  refine yields_ite (fun _ => yields_ok hs) fun _ => ?_
  have hread :
    Yields (process_read self' (if ret > 0 then size_sub len ret.toNat else len) (some cb) s)
      fun r => P r.2.2.2 := by
    rw [process_read_chunked hchunked']
    exact enc_chunked_read_user hcb _ _ hs
  refine hread.bind ?_
  rintro ⟨ret', data, self2, user⟩ huser
  refine yields_ite (fun _ => yields_ok huser) fun _ =>
    yields_ite (fun _ => yields_ok huser) fun _ => ?_
  refine yields_ite (fun _ => yields_ok huser) fun _ => yields_bind ?_
  rintro ⟨ret2, copied2, self3⟩ -
  exact yields_ite (fun _ => yields_error _) fun _ => yields_ite (fun _ => yields_ok huser) fun _ =>
    yields_ok huser

theorem flush_output_user {cb : WriteCallback σ} {P : σ → Prop}
    (hcb : ∀ s data, P s → P (cb s data).2) (self : httpp_encoding_t) {s : σ} (hs : P s) :
    Yields (flush_output self cb s) fun r => r.1.process = self.process ∧ P r.2 := by
  unfold flush_output
  split
  · exact yields_ok ⟨rfl, hs⟩
  · refine yields_bind fun data _ => ?_
    refine yields_ite (fun _ => yields_ite (fun _ => ?_) fun _ => ?_) fun _ => ?_
    · exact yields_ok ⟨rfl, hcb _ _ hs⟩
    · exact yields_ok ⟨rfl, hcb _ _ hs⟩
    · exact yields_ok ⟨rfl, hcb _ _ hs⟩

theorem httpp_encoding_write_user {cb : WriteCallback σ} {P : σ → Prop}
    (hcb : ∀ s data, P s → P (cb s data).2) {self : httpp_encoding_t}
    (hchunked : self.process = .chunked) (buf : Option Bytes) (len : Nat) {s : σ} (hs : P s) :
    Yields (httpp_encoding_write self buf len (some cb) s) fun r => P r.2.2 := by
  unfold httpp_encoding_write
  refine (flush_output_user hcb self hs).bind ?_
  rintro ⟨self1, user1⟩ ⟨hproc, huser1⟩
  have hwrite : Yields (process_write self1 buf len cb user1) fun r => P r.2.2 := by
    unfold process_write
    rw [hproc, hchunked]
    refine yields_bind ?_
    rintro ⟨ret, self2⟩ -
    exact yields_ok huser1
  refine hwrite.bind ?_
  rintro ⟨ret, self2, user2⟩ huser2
  refine (flush_output_user hcb self2 huser2).bind ?_
  rintro ⟨self3, user3⟩ ⟨-, huser3⟩
  exact yields_ok huser3

/-! ## Two ends -/

/-- Both ends and the channel, with the metadata that waits for a frame, the frames, and what the
reader has been given. -/
structure Relay (σ : Type) where
  writer : httpp_encoding_t
  reader : httpp_encoding_t
  channel : σ
  queued : List Pair
  posts : List Post
  out : Bytes
  picked : List httpp_meta_t

/-- A call at one of the ends. Metadata is of the kind that can be restored. -/
inductive Move where
  | append_meta (items : List Item) (restored : ∀ i ∈ items, Restored i.pair)
  | write (block : Bytes) (len : Nat) (pos : 0 < len) (within : len ≤ block.length)
  | close
  | read (room : Room)
  | get_meta

/-- A write has framed some data with the metadata that was queued. -/
def Relay.framed (x : Relay σ) (writer : httpp_encoding_t) (channel : σ) (data : Bytes) : Relay σ :=
  { x with
    writer := writer, channel := channel, queued := []
    posts := x.posts ++ [(x.queued, data)] }

/-- A write has framed nothing. -/
def Relay.waiting (x : Relay σ) (writer : httpp_encoding_t) (channel : σ) : Relay σ :=
  { x with writer := writer, channel := channel }

def Relay.move (send : WriteCallback σ) (recv : ReadCallback σ) (x : Relay σ) : Move → C (Relay σ)
  | .append_meta items _ => return { x with
      writer := httpp_encoding_append_meta x.writer (items.map Item.item),
      queued := x.queued ++ items.map Item.pair }
  | .write block len _ _ => do
    let (ret, writer, channel) ← httpp_encoding_write x.writer (some block) len
      (some send) x.channel
    if ret > 0 then
      return x.framed writer channel (block.take ret.toNat)
    else
      return x.waiting writer channel
  | .close => do
    let (_, writer, channel) ← httpp_encoding_write x.writer none 0 (some send) x.channel
    -- The result is 0 either way: NULL was framed if nothing waited behind the first flush.
    if (flushed send x.channel (unsent x.writer)).1 = [] then return x.framed writer channel []
    else return x.waiting writer channel
  | .read room => do
    let (ret, buf, reader, channel) ← httpp_encoding_read x.reader room.len (some recv) x.channel
    return { x with reader := reader, channel := channel, out := x.out ++ buf.take ret.toNat }
  | .get_meta =>
    let (items, reader) := httpp_encoding_get_meta x.reader
    return { x with reader := reader, picked := x.picked ++ items }

namespace Relay

/-- The frames are what was sent and what is still to be sent, and the queued metadata waits. -/
structure Sends (sent : σ → Bytes) (x : Relay σ) : Prop where
  delivers : Encoder.Delivers sent [] ⟨x.writer, x.channel, x.queued, sent_text x.posts⟩
  queued : ∀ p ∈ x.queued, Restored p
  posts : ∀ p ∈ x.posts, p.Valid

/-- The reader gets the data and the metadata of `all`, once their frames come. -/
def Receives (taken : σ → Nat) (x : Relay σ) (all : List Post) : Prop :=
  ∃ further due items, Hears further x.reader ((sent_text all).drop (taken x.channel)) due items ∧
    x.out ++ due = said all ∧ x.picked ++ items = (announced all).map stored

/-- Whatever is sent further until the stream is ended, the reader will get it. -/
structure Faithful (sent : σ → Bytes) (taken : σ → Nat) (x : Relay σ) : Prop where
  sends : x.Sends sent
  receives : ∀ more : List Post, (∀ p ∈ more, p.Valid) → Over (x.posts ++ more) →
    x.Receives taken (x.posts ++ more)

section Moves

variable {send : WriteCallback σ} {recv : ReadCallback σ} {sent : σ → Bytes} {taken : σ → Nat}
  {x : Relay σ}

theorem sent_text_append (posts more : List Post) :
    sent_text (posts ++ more) = sent_text posts ++ sent_text more :=
  List.flatMap_append

theorem Sends.front (h : x.Sends sent) (more : List Post) :
    sent x.channel <+: sent_text (x.posts ++ more) := by
  obtain ⟨u, -, hsent⟩ := h.delivers.sent
  rw [sent_text_append]
  refine ⟨u ++ sent_text more, ?_⟩
  rw [← List.append_assoc]
  exact congrArg (· ++ sent_text more) hsent

/-- The data that is left of a buffer. -/
def data_of (buf : Option Bytes) (len : Nat) : Bytes := (buf.getD []).take (chunk_size buf len)

theorem data_of_length {buf : Option Bytes} {len : Nat}
    (hbuf : ∀ block, buf = some block → len ≤ block.length) :
    (data_of buf len).length = chunk_size buf len ∧ chunk_size buf len ≤ 1048576 := by
  unfold data_of chunk_size
  cases buf with
  | none => simp
  | some block =>
    have hle := hbuf block rfl
    simp only [Option.getD_some, List.length_take, reduceCtorEq, if_false]
    omega

theorem frame_text (ps : List Pair) {buf : Option Bytes} {len : Nat}
    (hbuf : ∀ block, buf = some block → len ≤ block.length) (hlen : buf ≠ none → 0 < len) :
    frame (extensions ps) buf (chunk_size buf len) = Post.text (ps, data_of buf len) := by
  have hsize := (data_of_length hbuf).1
  have hlast : data_of buf len = [] ↔ buf = none := by
    rw [← List.length_eq_zero_iff, hsize, chunk_size]
    by_cases hnone : buf = none
    · simp [hnone]
    · have := hlen hnone
      simp only [hnone, if_false, iff_false]
      omega
  unfold frame Post.text
  simp only [hsize, hlast]
  rfl

theorem frame_small (ps : List Pair) {buf : Option Bytes} {len : Nat}
    (hbuf : ∀ block, buf = some block → len ≤ block.length) (hlen : buf ≠ none → 0 < len)
    (hroom : extensions_room ps < 2 ^ 62) :
    (frame (extensions ps) buf (chunk_size buf len)).length < 2 ^ 63 := by
  obtain ⟨hsize, hmax⟩ := data_of_length hbuf
  have hdigits : (hex (chunk_size buf len)).length ≤ 6 := hex_length_le (by decide) (by omega)
  have hexts := extensions_length_lt ps
  rw [frame_text ps hbuf hlen]
  simp only [Post.text, List.length_append, hsize, crlf]
  split_ifs <;> simp only [List.length_cons, List.length_nil, List.length_append] <;> omega

section Write

variable (hacc : Accepts send sent) (h : x.Sends sent) {buf : Option Bytes} {len : Nat}

include hacc h

theorem Sends.write_framed (hbuf : ∀ block, buf = some block → len ≤ block.length)
    (hlen : buf ≠ none → 0 < len) (hroom : extensions_room x.queued < 2 ^ 62)
    (hfree : (flushed send x.channel (unsent x.writer)).1 = []) :
    ∃ writer channel,
      httpp_encoding_write x.writer buf len (some send) x.channel =
      .ok ((chunk_size buf len : Int), writer, channel) ∧
      (x.framed writer channel (data_of buf len)).Sends sent := by
  obtain ⟨u, hu, hsent⟩ := h.delivers.sent
  have hflush := hacc.flushed x.channel u
  have hwriter : Unsent x.writer u := hu
  rw [show unsent x.writer = u from hu.holds.left] at hfree
  have hline := line_of_generous h.delivers.generous h.delivers.nulFree
  obtain ⟨hsize, hmax⟩ := data_of_length hbuf
  have htext := frame_text x.queued hbuf hlen
  obtain ⟨writer, hrun, hunsent', hproc, hmeta, hlater, -⟩ :=
    write_queues hacc.takes h.delivers.process hwriter x.channel
      (extensions_line h.delivers.queue) hbuf
      (hline ▸ frame_small x.queued hbuf hlen hroom) hfree (h.delivers.generous _ _ _)
  rw [show line_of x.writer x.queued = extensions x.queued from hline, htext] at hrun hunsent'
  obtain ⟨s1, hs1⟩ : ∃ s1, (flushed send x.channel u).2 = s1 := ⟨_, rfl⟩
  rw [hs1] at hrun hunsent'
  have hsent' := hacc.flushed s1 (Post.text (x.queued, data_of buf len))
  have hprior : sent s1 = sent_text x.posts := by
    rw [hfree, List.append_nil, hs1] at hflush
    rw [hflush]
    exact hsent
  rw [hprior] at hsent'
  obtain ⟨⟨rest, s2⟩, hs2⟩ : ∃ r, flushed send s1 (Post.text (x.queued, data_of buf len)) = r :=
    ⟨_, rfl⟩
  rw [hs2] at hrun hunsent' hsent'
  have hqueue : List.Forall₂ Stands writer.meta_write [] := by
    rw [hmeta, meta_after, if_pos (h.delivers.generous _ _ _)]
    exact .nil
  have hstream : sent s2 ++ rest = [] ++ sent_text (x.posts ++ [(x.queued, data_of buf len)]) := by
    rw [hsent', sent_text_append]
    simp [sent_text]
  refine ⟨writer, s2, hrun, ⟨hproc, h.delivers.generous.later hlater, hqueue,
    fun _ hp => absurd hp List.not_mem_nil, rest, hunsent', hstream⟩,
    fun _ hp => absurd hp List.not_mem_nil, ?_⟩
  intro p hp
  rcases List.mem_append.mp hp with hp | hp
  · exact h.posts p hp
  · rw [List.mem_singleton] at hp
    subst hp
    exact ⟨h.queued, by rw [hsize]; exact hmax⟩

theorem Sends.write_waiting (hbusy : (flushed send x.channel (unsent x.writer)).1 ≠ []) :
    ∃ writer channel, httpp_encoding_write x.writer buf len (some send) x.channel =
      .ok (0, writer, channel) ∧
      (x.waiting writer channel).Sends sent := by
  obtain ⟨u, hu, hsent⟩ := h.delivers.sent
  have hflush := hacc.flushed x.channel u
  have hwriter : Unsent x.writer u := hu
  rw [show unsent x.writer = u from hu.holds.left] at hbusy
  obtain ⟨writer, hrun, hunsent', hsame⟩ :=
    write_refuses hacc.takes h.delivers.process hwriter x.channel buf len hbusy
  have hstream := hacc.flushed (flushed send x.channel u).2 (flushed send x.channel u).1
  rw [hflush] at hstream
  obtain ⟨⟨rest, s2⟩, hs2⟩ : ∃ r,
      flushed send (flushed send x.channel u).2 (flushed send x.channel u).1 = r := ⟨_, rfl⟩
  rw [hs2] at hrun hunsent' hstream
  refine ⟨writer, s2, hrun, ⟨?_, ?_, ?_, h.delivers.nulFree, rest, hunsent', hstream.trans hsent⟩,
    h.queued, h.posts⟩
  · show writer.process = .chunked
    rw [hsame]
    exact h.delivers.process
  · show Generous writer.grants
    rw [hsame]
    exact h.delivers.generous
  · show List.Forall₂ Stands writer.meta_write x.queued
    rw [hsame]
    exact h.delivers.queue

theorem Sends.write (hbuf : ∀ block, buf = some block → len ≤ block.length)
    (hlen : buf ≠ none → 0 < len) (hroom : extensions_room x.queued < 2 ^ 62) :
    ∃ ret writer channel, httpp_encoding_write x.writer buf len (some send) x.channel =
      .ok (ret, writer, channel) ∧
      ((flushed send x.channel (unsent x.writer)).1 = [] ∧ ret = chunk_size buf len ∧
          (x.framed writer channel (data_of buf len)).Sends sent ∨
        (flushed send x.channel (unsent x.writer)).1 ≠ [] ∧ ret = 0 ∧
        (x.waiting writer channel).Sends sent) := by
  by_cases hfree : (flushed send x.channel (unsent x.writer)).1 = []
  · obtain ⟨writer, channel, hrun, hsends⟩ := h.write_framed hacc hbuf hlen hroom hfree
    exact ⟨_, writer, channel, hrun, .inl ⟨hfree, rfl, hsends⟩⟩
  · obtain ⟨writer, channel, hrun, hsends⟩ := h.write_waiting hacc hfree
    exact ⟨_, writer, channel, hrun, .inr ⟨hfree, rfl, hsends⟩⟩

end Write

theorem Faithful.further {y : Relay σ} (h : x.Faithful sent taken) (hreader : y.reader = x.reader)
    (hout : y.out = x.out) (hpicked : y.picked = x.picked)
    (htaken : taken y.channel = taken x.channel) (hsends : y.Sends sent)
    {new : List Post} (hposts : y.posts = x.posts ++ new) : y.Faithful sent taken := by
  refine ⟨hsends, fun more hmore hover => ?_⟩
  have hnew : ∀ p ∈ new, p.Valid :=
    fun p hp => hsends.posts p (by rw [hposts]; exact List.mem_append_right _ hp)
  rw [hposts, List.append_assoc] at hover ⊢
  have hvalid : ∀ p ∈ new ++ more, p.Valid := by
    intro p hp
    rcases List.mem_append.mp hp with hp | hp
    · exact hnew p hp
    · exact hmore p hp
  obtain ⟨further, due, items, hhears, hdue, hitems⟩ := h.receives (new ++ more) hvalid hover
  exact ⟨further, due, items, by rw [hreader, htaken]; exact hhears, by rw [hout, hdue],
    by rw [hpicked, hitems]⟩

theorem Faithful.append_meta (h : x.Faithful sent taken) (items : List Item)
    (restored : ∀ i ∈ items, Restored i.pair) :
    ∃ y, x.move send recv (.append_meta items restored) = .ok y ∧ y.Faithful sent taken := by
  refine ⟨_, rfl,
    h.further rfl rfl rfl rfl ⟨h.sends.delivers.append_meta items, ?_, h.sends.posts⟩
      (List.append_nil _).symm⟩
  intro p hp
  rcases List.mem_append.mp hp with hp | hp
  · exact h.sends.queued p hp
  · obtain ⟨i, hi, rfl⟩ := List.mem_map.mp hp
    exact restored i hi

theorem write_taken (hch : Channel send recv sent taken) (h : x.Sends sent) (buf : Option Bytes)
    (len : Nat) :
    Yields (httpp_encoding_write x.writer buf len (some send) x.channel) fun r =>
      taken r.2.2 = taken x.channel :=
  httpp_encoding_write_user (P := fun s => taken s = taken x.channel) (fun s data hs =>
    (hch.send_taken s data).trans hs)
    h.delivers.process buf len rfl

theorem Faithful.write (hch : Channel send recv sent taken) (h : x.Faithful sent taken)
    {block : Bytes} {len : Nat} (pos : 0 < len) (within : len ≤ block.length)
    (hroom : extensions_room x.queued < 2 ^ 62) :
    ∃ y, x.move send recv (.write block len pos within) = .ok y ∧ y.Faithful sent taken := by
  have hbuf : ∀ b, some block = some b → len ≤ b.length := by
    intro b hb
    rwa [← Option.some.inj hb]
  obtain ⟨ret, writer, channel, hrun, hcase⟩ := h.sends.write hch.accepts hbuf (fun _ => pos) hroom
  have htaken := write_taken hch h.sends _ _ _ hrun
  show ∃ y, (httpp_encoding_write x.writer (some block) len (some send) x.channel >>= _) = _ ∧ _
  rcases hcase with ⟨-, rfl, hnext⟩ | ⟨-, rfl, hnext⟩
  · have hsize : 0 < chunk_size (some block) len := by
      simp only [chunk_size, reduceCtorEq, if_false]
      omega
    refine ⟨x.framed writer channel (data_of (some block) len), ?_,
      h.further rfl rfl rfl htaken hnext rfl⟩
    simp only [hrun, ok_bind, if_pos (show (chunk_size (some block) len : Int) > 0 by omega),
      Int.toNat_natCast, pure_eq_ok]
    rfl
  · refine ⟨x.waiting writer channel, ?_,
      h.further rfl rfl rfl htaken hnext (List.append_nil _).symm⟩
    rw [hrun]
    rfl

theorem Faithful.close (hch : Channel send recv sent taken) (h : x.Faithful sent taken)
    (hroom : extensions_room x.queued < 2 ^ 62) :
    ∃ y, x.move send recv .close = .ok y ∧ y.Faithful sent taken := by
  have hbuf : ∀ b, (none : Option Bytes) = some b → 0 ≤ b.length := fun b hb => absurd hb (by simp)
  obtain ⟨ret, writer, channel, hrun, hcase⟩ :=
    h.sends.write hch.accepts hbuf (fun hne => absurd rfl hne) hroom
  have htaken := write_taken hch h.sends _ _ _ hrun
  show ∃ y, (httpp_encoding_write x.writer none 0 (some send) x.channel >>= _) = _ ∧ _
  rcases hcase with ⟨hfree, -, hnext⟩ | ⟨hbusy, -, hnext⟩
  · refine ⟨x.framed writer channel [], ?_, h.further rfl rfl rfl htaken hnext rfl⟩
    simp only [hrun, ok_bind, if_pos hfree, pure_eq_ok]
  · refine ⟨x.waiting writer channel, ?_,
      h.further rfl rfl rfl htaken hnext (List.append_nil _).symm⟩
    simp only [hrun, ok_bind, if_neg hbusy, pure_eq_ok]

theorem coming_front (h : x.Sends sent) (more : List Post) :
    coming sent taken (sent_text (x.posts ++ more)) x.channel =
      (sent_text (x.posts ++ more)).drop (taken x.channel) :=
  if_pos (h.front more)

/-- A read takes the front of what the reader will get, whatever that is. -/
theorem Faithful.read (hch : Channel send recv sent taken) (h : x.Faithful sent taken)
    (room : Room) :
    ∃ y, x.move send recv (.read room) = .ok y ∧ y.Faithful sent taken := by
  have hread (more : List Post) (hmore : ∀ p ∈ more, p.Valid) (hover : Over (x.posts ++ more)) :
      ∃ further due items ret buf reader channel,
        httpp_encoding_read x.reader room.len (some recv) x.channel =
          .ok (ret, buf, reader, channel) ∧
        sent channel = sent x.channel ∧
        Heard (coming sent taken (sent_text (x.posts ++ more))) further due
          (buf.take ret.toNat) items reader channel ∧
        x.out ++ due = said (x.posts ++ more) ∧
        x.picked ++ items = (announced (x.posts ++ more)).map stored := by
    obtain ⟨further, due, items, hhears, hdue, hitems⟩ := h.receives more hmore hover
    have hchunked : x.reader.process = .chunked := by
      obtain ⟨cs, owed, d, htuned, -⟩ := hhears
      exact htuned.chunked
    rw [← coming_front h.sends more] at hhears
    obtain ⟨ret, buf, reader, channel, hrun, hheard⟩ :=
      hears_read (hch.feeds (sent_text (x.posts ++ more))) room.pos room.fits hhears
    have hsent : sent channel = sent x.channel :=
      httpp_encoding_read_user (P := fun s => sent s = sent x.channel) (fun s n hs =>
        (hch.recv_sent s n).trans hs) hchunked
        room.len rfl _ hrun
    exact ⟨further, due, items, ret, buf, reader, channel, hrun, hsent, hheard, hdue, hitems⟩
  obtain ⟨-, -, -, ret, buf, reader, channel, hrun, hsent, -, -, -⟩ := hread [ending] (by
    intro p hp
    rw [List.mem_singleton] at hp
    exact hp ▸ ending_valid) (by simpa using over_ending x.posts [])
  let y : Relay σ :=
    { x with reader := reader, channel := channel, out := x.out ++ buf.take ret.toNat }
  have hsends : y.Sends sent := by
    obtain ⟨u, hu, htext⟩ := h.sends.delivers.sent
    refine ⟨⟨h.sends.delivers.process, h.sends.delivers.generous, h.sends.delivers.queue,
      h.sends.delivers.nulFree, u, hu, ?_⟩, h.sends.queued, h.sends.posts⟩
    show sent channel ++ u = _
    rw [hsent]
    exact htext
  refine ⟨y, ?_, hsends, fun more hmore hover => ?_⟩
  · show (httpp_encoding_read x.reader room.len (some recv) x.channel >>= _) = _
    rw [hrun]
    rfl
  · -- The call is the same whatever comes, so each `more` tells what it has done.
    obtain ⟨further, due, items, ret', buf', reader', channel', hrun', -, ⟨due', hgot, hhears⟩,
        hdue, hitems⟩ :=
      hread more hmore hover
    cases hrun.symm.trans hrun'
    have hcoming : coming sent taken (sent_text (y.posts ++ more)) y.channel = _ :=
      coming_front hsends more
    refine ⟨further, due', items, ?_, ?_, hitems⟩
    · rw [← hcoming]
      exact hhears
    · show x.out ++ buf.take ret.toNat ++ due' = _
      rw [List.append_assoc, hgot]
      exact hdue

theorem Faithful.get_meta (h : x.Faithful sent taken) :
    ∃ y, x.move send recv .get_meta = .ok y ∧ y.Faithful sent taken := by
  refine ⟨_, rfl, ⟨h.sends.delivers, h.sends.queued, h.sends.posts⟩, fun more hmore hover => ?_⟩
  obtain ⟨further, due, items, hhears, hdue, hitems⟩ := h.receives more hmore hover
  obtain ⟨later, hsplit, hhears'⟩ := hhears.get_meta
  refine ⟨further, due, later, hhears', hdue, ?_⟩
  show x.picked ++ x.reader.meta_read ++ later = _
  rw [List.append_assoc, hsplit]
  exact hitems

theorem Faithful.move (hch : Channel send recv sent taken) (h : x.Faithful sent taken) (a : Move)
    (hroom : extensions_room x.queued < 2 ^ 62) :
    ∃ y, x.move send recv a = .ok y ∧ y.Faithful sent taken := by
  cases a with
  | append_meta items restored => exact h.append_meta items restored
  | write block len pos within => exact h.write hch pos within hroom
  | close => exact h.close hch hroom
  | read room => exact h.read hch room
  | get_meta => exact h.get_meta

end Moves

/-! ## Runs -/

/-- What the reader has is the front of what the writer framed. Once the end is announced, the
writer has ended the stream and the reader has all of it. -/
structure Agrees (x : Relay σ) : Prop where
  data : x.out <+: said x.posts
  items : x.picked ++ x.reader.meta_read <+: (announced x.posts).map stored
  eof : httpp_encoding_eof x.reader none x.channel = 1 →
    Over x.posts ∧ x.out = said x.posts ∧
    x.picked ++ x.reader.meta_read = (announced x.posts).map stored

theorem Faithful.agrees {sent : σ → Bytes} {taken : σ → Nat} {x : Relay σ}
    (h : x.Faithful sent taken) : x.Agrees := by
  have hending : ∀ p ∈ [ending], p.Valid := by
    intro p hp
    rw [List.mem_singleton] at hp
    exact hp ▸ ending_valid
  obtain ⟨further, due, items, hhears, hdue, hitems⟩ :=
    h.receives [ending] hending (by simpa using over_ending x.posts [])
  rw [said_ending] at hdue
  rw [announced_ending] at hitems
  refine ⟨⟨due, hdue⟩, ?_, fun heof => ?_⟩
  · obtain ⟨more, hmore, -⟩ := hhears.get_meta
    exact ⟨more, by rw [List.append_assoc, hmore, hitems]⟩
  · obtain ⟨rfl, hall⟩ := hhears.announced heof
    rw [List.append_nil] at hdue
    refine ⟨?_, hdue, by rw [hall, hitems]⟩
    -- Otherwise the writer could still say something.
    by_contra hopen
    have hmore : ∀ p ∈ ([([], [0]), ending] : List Post), p.Valid := by
      intro p hp
      rcases List.mem_cons.mp hp with rfl | hp
      · exact ⟨by simp, by simp⟩
      · exact hending p hp
    obtain ⟨further', due', items', hhears', hdue', -⟩ :=
      h.receives [([], [0]), ending] hmore (by simpa using over_ending x.posts [([], [0])])
    obtain ⟨rfl, -⟩ := hhears'.announced heof
    rw [List.append_nil, hdue, ← said_ending] at hdue'
    exact said_further hopen 0 (by simpa using hdue'.symm)

end Relay

theorem Fresh.receives {taken : σ → Nat} {grants : Grants} {reader writer : httpp_encoding_t}
    (hnew : Fresh grants reader) (hgen : Generous grants) {s : σ} (htaken : taken s = 0)
    {all : List Post} (hall : ∀ p ∈ all, p.Valid) (hover : Over all) :
    Relay.Receives taken ⟨writer, reader, s, [], [], [], []⟩ all := by
  obtain ⟨cs, further, htext, hne, hends, hpayload, hnews⟩ := sent_text_wire hall hover
  refine ⟨further, said all, (announced all).map stored,
    ⟨cs, [], [], ⟨?_, ?_, hends, ?_, ?_⟩, hpayload, ?_⟩, rfl, rfl⟩
  · rw [hnew.eq]
    rfl
  · rw [hnew.eq]
    exact hgen.later (malloc_later _ .encoding 152)
  · rw [hnew.eq, htaken, List.drop_zero, htext]
    exact .header hne rfl rfl Holds.null rfl
  · rw [hnew.eq]
    exact Holds.null
  · rw [hnew.eq, hnews]
    rfl

/-- **Relay.** However the calls at the two ends are interleaved, and however the channel cuts the
stream, no call fails, and the reader is given the data and the metadata that the writer framed, in
order and nothing else. -/
theorem relay_agrees {send : WriteCallback σ} {recv : ReadCallback σ} {sent : σ → Bytes}
    {taken : σ → Nat} (hch : Channel send recv sent taken) {wgrants rgrants : Grants}
    {writer reader : httpp_encoding_t} (hw : Fresh wgrants writer) (hwg : Generous wgrants)
    (hr : Fresh rgrants reader) (hrg : Generous rgrants) {s : σ} (hsent : sent s = [])
    (htaken : taken s = 0) (moves : List Move)
    (hroom : ∀ pre x, pre <+: moves →
      pre.foldlM (Relay.move send recv) ⟨writer, reader, s, [], [], [], []⟩ = .ok x →
      extensions_room x.queued < 2 ^ 62) :
    ∃ x, moves.foldlM (Relay.move send recv) ⟨writer, reader, s, [], [], [], []⟩ = .ok x ∧
      x.Agrees ∧
      sent x.channel ++ unsent x.writer = sent_text x.posts := by
  have hstart : Relay.Faithful sent taken ⟨writer, reader, s, [], [], [], []⟩ := by
    have hdelivers : Encoder.Delivers sent (sent s) ⟨writer, s, [], []⟩ := hw.delivers hwg s
    rw [hsent] at hdelivers
    exact ⟨⟨hdelivers, by simp, by simp⟩, fun more hmore hover =>
      hr.receives hrg htaken hmore hover⟩
  obtain ⟨x, hrun, h⟩ : ∃ x,
    moves.foldlM (Relay.move send recv) ⟨writer, reader, s, [], [], [], []⟩ = .ok x ∧
      x.Faithful sent taken := by
    refine run_along hstart fun pre a post x hsplit hpre h => ?_
    exact h.move hch a (hroom pre x (hsplit ▸ List.prefix_append _ _) hpre)
  refine ⟨x, hrun, h.agrees, ?_⟩
  have hstream := h.sends.delivers.unsent_eq
  exact hstream

/-! ## A tube -/

/-- The bytes that were sent, how many were taken out, and how much goes in and out at the next
calls. -/
structure Tube where
  sent : Bytes
  taken : Nat
  rooms : List Nat
  sizes : List Nat

def Tube.send : WriteCallback Tube := fun s data =>
  let n := min (s.rooms.headD 0) data.length
  if n = 0 then (-1, { s with rooms := s.rooms.tail })
  else (n, { s with sent := s.sent ++ data.take n, rooms := s.rooms.tail })

def Tube.recv : ReadCallback Tube := fun s n =>
  let f := (s.sent.drop s.taken).take (min n (s.sizes.headD 0))
  if f = [] then ((-1, []), { s with sizes := s.sizes.tail })
  else ((f.length, f), { s with taken := s.taken + f.length, sizes := s.sizes.tail })

theorem Tube.channel : Channel Tube.send Tube.recv Tube.sent Tube.taken := by
  have hsend (s : Tube) (data : Bytes) : send s data =
      if min (s.rooms.headD 0) data.length = 0 then (-1, { s with rooms := s.rooms.tail })
      else (((min (s.rooms.headD 0) data.length : Nat) : Int),
        { s with
          sent := s.sent ++ data.take (min (s.rooms.headD 0) data.length),
          rooms := s.rooms.tail }) := rfl
  have hrecv (s : Tube) (n : Nat) : ∃ f, f <+: s.sent.drop s.taken ∧ f.length ≤ n ∧
      recv s n = if f = [] then ((-1, []), { s with sizes := s.sizes.tail })
        else (((f.length : Int), f),
          { s with taken := s.taken + f.length, sizes := s.sizes.tail }) := by
    refine ⟨_, List.take_prefix (min n (s.sizes.headD 0)) _, ?_, rfl⟩
    rw [List.length_take]
    omega
  refine ⟨⟨fun s data => ?_⟩, fun s data => ?_, fun s n => ?_, fun s n => ?_, fun s n => ?_⟩
  · rw [hsend]
    split_ifs with hn
    · exact .inl ⟨by simp, rfl⟩
    · exact .inr ⟨_, by omega, Nat.min_le_right _ _, rfl, rfl⟩
  · rw [hsend]
    split_ifs <;> rfl
  · obtain ⟨f, -, -, hf⟩ := hrecv s n
    rw [hf]
    split_ifs <;> rfl
  · obtain ⟨f, -, hle, hf⟩ := hrecv s n
    rw [hf]
    split_ifs
    · exact Nat.zero_le n
    · exact hle
  · obtain ⟨f, hfront, -, hf⟩ := hrecv s n
    rw [hf]
    split_ifs with hnone
    · exact .inl ⟨.inr rfl, rfl⟩
    · exact .inr ⟨hnone, rfl, hfront, rfl⟩

theorem title_restored : ∀ i ∈ [title], Restored i.pair := by
  intro i hi
  rw [List.mem_singleton] at hi
  subst hi
  exact ⟨⟨by decide, by decide +kernel⟩, by decide, by decide, by decide⟩

/-- A title and three bytes, read in the middle of it. -/
def title_moves : List Move :=
  [.append_meta [title] title_restored, .write (ascii "abc") 3 (by decide) (by decide),
    .read sixteen, .close, .read sixteen]

theorem relay_agrees_title :
    let x0 : Relay Tube := ⟨chunked_encoding plenty, chunked_encoding plenty,
      { sent := [], taken := 0, rooms := [3, 40], sizes := [7, 40] }, [], [], [], []⟩
    ∃ x, title_moves.foldlM (Relay.move Tube.send Tube.recv) x0 = .ok x ∧ x.Agrees ∧
      x.channel.sent ++ unsent x.writer = sent_text x.posts := by
  refine relay_agrees Tube.channel (fresh_chunked rfl) (fun _ _ _ => rfl) (fresh_chunked rfl)
    (fun _ _ _ => rfl) rfl rfl
    title_moves ?_
  intro pre x hpre
  have hmem : pre ∈ title_moves.inits := (List.mem_inits _ _).mpr hpre
  change pre ∈ [[], title_moves.take 1, title_moves.take 2, title_moves.take 3, title_moves.take 4,
    title_moves] at hmem
  simp only [List.mem_cons, List.not_mem_nil, or_false] at hmem
  refine yields_of_all (P := fun x => extensions_room x.queued < 2 ^ 62) ?_ x
  rcases hmem with rfl | rfl | rfl | rfl | rfl | rfl <;> decide +kernel

end Encoding
