import IcecastCommon.Encoding.Decode
import IcecastCommon.Lib.Run

/-!
# Runs of reads

A reader calls `httpp_encoding_read` again and again and keeps what it delivers. The backend
hands over a message in fragments.
-/

namespace Encoding

open Lib

variable {σ : Type}

/-- The length of a buffer: positive, and no longer than an object can be. -/
structure Room where
  len : Nat
  pos : 0 < len
  fits : len < 2 ^ 63

/-- The reader, with what was delivered so far. -/
structure Session (σ : Type) where
  enc : httpp_encoding_t
  user : σ
  out : Bytes

def read_call (cb : ReadCallback σ) (x : Session σ) (room : Room) : C (Session σ) := do
  let (ret, buf, enc, user) ← httpp_encoding_read x.enc room.len (some cb) x.user
  return ⟨enc, user, x.out ++ buf.take ret.toNat⟩

def reads (cb : ReadCallback σ) (x : Session σ) (rooms : List Room) : C (Session σ) :=
  rooms.foldlM (read_call cb) x

/-- The bytes of the message, with what follows it. -/
def Message.text (m : Message) (further : Bytes) : Bytes := Encoding.text further m.lines

/-! ## A new decoder -/

/-- `enc` is a chunked encoding that was just made. -/
def Fresh (grants : Grants) (enc : httpp_encoding_t) : Prop :=
  ∃ encoding, httpp_encoding_new grants encoding = some enc ∧ enc.process = .chunked

/-- The fields of a new chunked encoding. -/
def chunked_encoding (grants : Grants) : httpp_encoding_t :=
  { process := .chunked, grants := (malloc grants .encoding 152).2, meta_read := [],
    meta_write := []
    bytes_till_eof := -1, read_bytes_till_header := 0
    buf_read_raw := none, buf_read_raw_offset := 0, buf_read_raw_len := 0
    buf_read_decoded := none, buf_read_decoded_offset := 0, buf_read_decoded_len := 0
    buf_write_encoded := none, buf_write_encoded_offset := 0, buf_write_encoded_len := 0 }

theorem Fresh.eq {grants : Grants} {enc : httpp_encoding_t} (h : Fresh grants enc) :
    enc = chunked_encoding grants := by
  obtain ⟨encoding, hnew, hchunked⟩ := h
  unfold httpp_encoding_new at hnew
  split at hnew
  · exact absurd hnew (by simp)
  · next hgrant =>
    split_ifs at hnew
    · simp only [Option.some.injEq] at hnew
      subst hnew
      exact absurd hchunked (by simp)
    · simp only [Option.some.injEq] at hnew
      rw [← hnew, chunked_encoding, hgrant]

theorem fresh_chunked {grants : Grants} (h : grants .encoding 0 152 = true) :
    Fresh grants (chunked_encoding grants) := by
  refine ⟨⟨HTTPP_ENCODING_CHUNKED, by decide⟩, ?_, rfl⟩
  have hother : ¬ strcasecmp HTTPP_ENCODING_CHUNKED HTTPP_ENCODING_IDENTITY = 0 := by decide
  have hsame : strcasecmp HTTPP_ENCODING_CHUNKED HTTPP_ENCODING_CHUNKED = 0 := by decide
  unfold httpp_encoding_new
  simp only [malloc, h, hother, if_false, hsame, if_true, chunked_encoding]

variable {cb : ReadCallback σ} {left : σ → Bytes} {ample : Prop} {further : Bytes}

/-- What the session holds and what is still to come make up the message. -/
def Follows (left : σ → Bytes) (ample : Prop) (further : Bytes) (m : Message) (x : Session σ)
    (ls : List Chunk) (owed d : Bytes) : Prop :=
  At ample further x.enc (left x.user) ls owed d ∧ x.out ++ d ++ owed ++ bodies ls = bodies m.chunks

theorem Fresh.follows {grants : Grants} {enc : httpp_encoding_t} (h : Fresh grants enc)
    (m : Message) (hgen : ample → Generous grants) {s : σ} (hs : left s = m.text further) :
    Follows left ample further m ⟨enc, s, []⟩ m.lines [] [] := by
  have hlater := malloc_later grants .encoding 152
  rw [h.eq]
  refine ⟨⟨rfl, fun ha => (hgen ha).later hlater, m.closing, ?_, Holds.null⟩, ?_⟩
  · exact .header m.lines_ne_nil rfl rfl Holds.null hs
  · exact m.bodies_lines

/-! ## Every call -/

/-- The call finds a header and has to take its body out of the buffer, and `malloc` refuses. -/
def Refused (cb : ReadCallback σ) (x : Session σ) (room : Room) : Prop :=
  ∃ found, read_search x.enc room.len cb x.user = some found ∧ ¬ Affords found

theorem Generous.not_refused {x : Session σ} {room : Room} (h : Generous x.enc.grants) :
    ¬ Refused cb x room := by
  rintro ⟨found, hfound, hno⟩
  exact hno (h.affords (read_search_later hfound))

theorem read_call_step (hfeed : Feeds cb left) {m : Message} {x : Session σ} {ls : List Chunk}
    {owed d : Bytes} (room : Room) (h : Follows left ample further m x ls owed d)
    (hroom : ¬ Refused cb x room) :
    ∃ x' ls' owed' d', read_call cb x room = .ok x' ∧ x.out <+: x'.out ∧
      Follows left ample further m x' ls' owed' d' ∧
      ((x'.user = x.user ∧ x'.enc.bytes_till_eof = x.enc.bytes_till_eof ∧ ls' = ls ∧
      d'.length < d.length) ∨
        (Asked cb ample x.enc x.user x'.user ∧
          Moved left ample further x.user x'.user x.enc.bytes_till_eof
            x'.enc.bytes_till_eof ls ls' ∧
          (left x'.user = left x.user ∨ ls' = [] → d' = []))) := by
  obtain ⟨hat, hout⟩ := h
  have haffords (found : httpp_encoding_t)
    (hfound : read_search x.enc room.len cb x.user = some found) :
      Affords found := by
    by_contra hno
    exact hroom ⟨found, hfound, hno⟩
  obtain ⟨ret, buf, enc, user, hrun, hcase⟩ := read_step hfeed room.pos room.fits hat haffords
  have hcall : read_call cb x room = .ok ⟨enc, user, x.out ++ buf.take ret.toNat⟩ := by
    unfold read_call
    rw [hrun]
    rfl
  rcases hcase with ⟨hle, rfl, heof, hat', hgot⟩ |
    ⟨-, hasked, ls', owed', d', hmoved, hat', hdue, hquiet⟩
  · refine ⟨_, ls, owed, d.drop room.len, hcall, List.prefix_append _ _, ⟨hat', ?_⟩,
      .inl ⟨rfl, heof, rfl, ?_⟩⟩
    · rw [← hout, hgot, List.append_assoc x.out, List.take_append_drop]
    · have := room.pos
      rw [List.length_drop]
      omega
  · refine ⟨_, ls', owed', d', hcall, List.prefix_append _ _, ⟨hat', ?_⟩,
      .inr ⟨hasked, hmoved, hquiet⟩⟩
    rw [← hout, List.append_assoc, List.append_assoc, List.append_assoc, ← List.append_assoc d',
      ← List.append_assoc (buf.take _), ← List.append_assoc (buf.take _), hdue]
    simp

theorem reads_follow (hfeed : Feeds cb left) {m : Message} {x : Session σ} {ls : List Chunk}
    {owed d : Bytes} (h : Follows left ample further m x ls owed d) (rooms : List Room)
    (hroom : ∀ pre room post y, rooms = pre ++ room :: post → reads cb x pre = .ok y →
      ¬ Refused cb y room) :
    ∃ x', reads cb x rooms = .ok x' ∧ ∃ ls owed d, Follows left ample further m x' ls owed d := by
  refine run_along ⟨ls, owed, d, h⟩ fun pre room post y hrooms hy hfollows => ?_
  obtain ⟨ls, owed, d, hfollows⟩ := hfollows
  obtain ⟨x', ls', owed', d', hcall, -, hx', -⟩ :=
    read_call_step hfeed room hfollows (hroom pre room post y hrooms hy)
  exact ⟨x', hcall, ls', owed', d', hx'⟩

theorem Follows.eof {m : Message} {x : Session σ} {ls : List Chunk} {owed d : Bytes}
    (h : Follows left ample further m x ls owed d)
    (heof : httpp_encoding_eof x.enc none x.user = 1) :
    x.out = bodies m.chunks := by
  obtain ⟨hat, hout⟩ := h
  have hsub : size_sub x.enc.buf_read_decoded_len x.enc.buf_read_decoded_offset = d.length :=
    hat.decoded.size_sub_eq
  unfold httpp_encoding_eof at heof
  rw [hsub] at heof
  split_ifs at heof with hd hend
  · exact absurd heof (by decide)
  · have hnil : d = [] := List.eq_nil_of_length_eq_zero (by omega)
    subst hnil
    cases hat.phase with
    | header more eof => omega
    | body eof => split at eof <;> omega
    | stray eof => omega
    | eof => simpa [bodies] using hout
  · exact absurd heof (by simp)

/-- Nothing but the message was delivered, and all of it when the end is announced. -/
def Safe (m : Message) (x : Session σ) : Prop :=
  x.out <+: bodies m.chunks ∧ (httpp_encoding_eof x.enc none x.user = 1 → x.out = bodies m.chunks)

/-- **Safety.** Every fragmentation of a message is decoded to the message, as long as there is
memory for the bodies that a call of the run takes out of the buffer. -/
theorem reads_safe (hfeed : Feeds cb left) {grants : Grants} {enc : httpp_encoding_t}
    (hnew : Fresh grants enc) (m : Message) (further : Bytes) {s : σ} (hs : left s = m.text further)
    (rooms : List Room)
    (hroom : ∀ pre room post x, rooms = pre ++ room :: post → reads cb ⟨enc, s, []⟩ pre = .ok x →
      ¬ Refused cb x room) :
    ∃ x, reads cb ⟨enc, s, []⟩ rooms = .ok x ∧ Safe m x := by
  have hstart : Follows left False further m ⟨enc, s, []⟩ m.lines [] [] :=
    hnew.follows m False.elim hs
  obtain ⟨x, hrun, ls, owed, d, h⟩ := reads_follow hfeed hstart rooms hroom
  refine ⟨x, hrun, ?_, h.eof⟩
  rw [← h.2, List.append_assoc, List.append_assoc]
  exact List.prefix_append _ _

/-! ## A network -/

/-- The bytes on their way, the sizes of the next fragments, and the fragments handed over. -/
structure Network where
  rest : Bytes
  sizes : List Nat
  handed : List Bytes := []

/-- Without a size, as much as was asked for comes in one fragment. -/
def Network.recv : ReadCallback Network := fun s n =>
  let f := s.rest.take (min n (max 1 (s.sizes.headD n)))
  if f = [] then ((0, []), s)
  else ((f.length, f),
    { rest := s.rest.drop f.length, sizes := s.sizes.tail, handed := s.handed ++ [f] })

theorem Network.recv_fragments : Fragments Network.recv Network.rest Network.handed := by
  constructor
  · intro s n hn hleft
    obtain ⟨f, hf⟩ : ∃ f, s.rest.take (min n (max 1 (s.sizes.headD n))) = f := ⟨_, rfl⟩
    have hlen : f.length = min (min n (max 1 (s.sizes.headD n))) s.rest.length := by
      rw [← hf, List.length_take]
    have hpos := List.length_pos_iff.mpr hleft
    have hsome : f ≠ [] := by
      rw [← List.length_pos_iff]
      omega
    have hle : f.length ≤ n := by omega
    have hsplit : f ++ s.rest.drop f.length = s.rest :=
      List.prefix_iff_eq_append.mp (hf ▸ List.take_prefix _ _)
    have hrecv : recv s n = (((f.length : Int), f),
        { rest := s.rest.drop f.length, sizes := s.sizes.tail, handed := s.handed ++ [f] }) := by
      unfold recv
      rw [hf]
      exact if_neg hsome
    rw [hrecv]
    exact ⟨hsome, hle, rfl, hsplit.symm, rfl⟩
  · intro s n hq
    have hnone : s.rest.take (min n (max 1 (s.sizes.headD n))) = [] := by
      rcases hq with rfl | hrest
      · simp
      · rw [hrest, List.take_nil]
    have hrecv : recv s n = ((0, []), s) := by
      unfold recv
      rw [hnone]
      exact if_pos rfl
    rw [hrecv]
    exact ⟨Nat.zero_le n, .inl rfl, rfl, rfl⟩

/-- A body that reads like a chunk. -/
def nested : Message where
  chunks := [⟨ascii "4", ascii "1\r\nX", by decide, by decide +kernel, by decide, by decide⟩]
  last := zero
  filled := by decide
  empty := zero_body

def sixteen : Room := ⟨16, by decide, by decide⟩

/-- There is no memory for the first body. -/
def starved : Grants := fun site n _ => ¬ (site = .read_decoded ∧ n = 0)

/-- The last chunk comes in a fragment of its own. -/
def nested_network : Network := { rest := nested.text [], sizes := [9] }

/-- Without memory the header is lost, and the body is taken for the next chunk. -/
theorem reads_unsafe :
    ¬ ∀ (cb : ReadCallback Network) (left : Network → Bytes) (grants : Grants)
      (enc : httpp_encoding_t) (m : Message) (further : Bytes) (s : Network) (rooms : List Room),
      Feeds cb left → Fresh grants enc → left s = m.text further →
        ∃ x, reads cb ⟨enc, s, []⟩ rooms = .ok x ∧ Safe m x := by
  intro h
  obtain ⟨x, hrun, hsafe, -⟩ :=
    h Network.recv Network.rest starved (chunked_encoding starved) nested []
      nested_network [sixteen, sixteen] Network.recv_fragments.feeds (fresh_chunked rfl) rfl
  have hout :
    (match reads Network.recv ⟨chunked_encoding starved, nested_network, []⟩ [sixteen, sixteen] with
      | .ok x => decide (x.out = ascii "X")
      | .error _ => false) = true := by decide +kernel
  rw [hrun] at hout
  rw [of_decide_eq_true hout] at hsafe
  exact absurd hsafe (by decide)

/-- A body that reads like a chunk, and a longer one. -/
def unequal : Message where
  chunks :=
    [⟨ascii "4", ascii "1\r\nX", by decide, by decide +kernel, by decide, by decide⟩,
      ⟨ascii "a", ascii "helloworld", by decide, by decide +kernel, by decide, by decide⟩]
  last := zero
  filled := by decide
  empty := zero_body

/-- There is memory for bodies of up to six bytes. -/
def bounded : Grants := fun site _ size => site ≠ .read_decoded ∨ size ≤ 6

/-- The long body comes in two fragments. -/
def unequal_session : Session Network :=
  ⟨chunked_encoding bounded, { rest := unequal.text [], sizes := [9, 8] }, []⟩

theorem affords_of_buffered {found : httpp_encoding_t}
    (h : ∀ size < buffered found, 0 < size → found.grants .read_decoded 0 size = true) :
    Affords found :=
  fun size _ hpos hless => h size hless hpos

theorem unequal_granted (k : Nat) (hk : k < 4) (x : Session Network)
    (hx : reads Network.recv unequal_session (List.replicate k sixteen) = .ok x) :
    ¬ Refused Network.recv x sixteen := by
  have hall :
    ∀ k < 4, (reads Network.recv unequal_session (List.replicate k sixteen)).toOption.all (fun x =>
      (read_search x.enc sixteen.len Network.recv x.user).all fun found =>
        decide (∀ size < buffered found, 0 < size → found.grants .read_decoded 0 size = true)) =
          true := by
    decide +kernel
  have hone := hall k hk
  rw [hx] at hone
  rintro ⟨found, hfound, hno⟩
  have htwo : (read_search x.enc sixteen.len Network.recv x.user).all (fun found =>
      decide (∀ size < buffered found, 0 < size → found.grants .read_decoded 0 size = true)) =
        true := hone
  rw [hfound] at htwo
  exact hno (affords_of_buffered (of_decide_eq_true htwo))

/-- A fragmented message, with little memory. -/
theorem reads_safe_unequal :
    ∃ x, reads Network.recv unequal_session (List.replicate 4 sixteen) = .ok x ∧
      Safe unequal x := by
  refine reads_safe Network.recv_fragments.feeds (fresh_chunked rfl) unequal [] rfl
    (List.replicate 4 sixteen)
    fun pre room post x hrooms hx => ?_
  obtain ⟨hlen, hpre, hmore⟩ := List.append_eq_replicate_iff.mp hrooms.symm
  obtain rfl : room = sixteen := List.eq_of_mem_replicate (hmore ▸ List.mem_cons_self)
  rw [List.length_cons] at hlen
  rw [hpre] at hx
  exact unequal_granted pre.length (by omega) x hx

end Encoding
