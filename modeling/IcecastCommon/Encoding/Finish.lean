import IcecastCommon.Encoding.Encoder
import Mathlib.Algebra.Group.Nat.Even

/-!
# The end of a stream

What a write with a NULL buffer adds behind the chunks of a session, and what becomes of the loop
that repeats it until nothing is pending.
-/

namespace Encoding

open Lib

/-! ## Reading chunks back -/

theorem chunk_unique {c d : Chunk} {r r' : Bytes}
    (h : c.digits ++ crlf ++ (c.body ++ crlf ++ r) = d.digits ++ crlf ++ (d.body ++ crlf ++ r')) :
    c.body = d.body ∧ r = r' := by
  have hline (c : Chunk) (r : Bytes) : (c.digits ++ crlf ++ r).takeWhile (· != CR) = c.digits := by
    have hdigits : ∀ b ∈ c.digits, (b != CR) = true := by
      intro b hb
      rw [bne_iff_ne]
      exact isxdigit_ne (c.hexadecimal b hb) CR_not_digit
    rw [List.append_assoc, List.takeWhile_append_of_pos hdigits]
    simp [crlf]
  have hdigits : c.digits = d.digits := by
    rw [← hline c, h, hline d]
  have hlen : c.body.length = d.body.length := by rw [← c.size, ← d.size, hdigits]
  rw [hdigits] at h
  have hrest := List.append_cancel_left h
  rw [List.append_assoc, List.append_assoc] at hrest
  obtain ⟨hbody, hrest⟩ := List.append_inj hrest hlen
  exact ⟨hbody, List.append_cancel_left hrest⟩

/-- The bytes start with a chunk that has a body. -/
def Opens (t : Bytes) : Prop :=
  ∃ (c : Chunk) (r : Bytes), c.body ≠ [] ∧ t = c.digits ++ crlf ++ (c.body ++ crlf ++ r)

def Filled (ls : List Chunk) : Prop := ∀ c ∈ ls, c.body ≠ []

/-- Chunks with bodies are followed by the same bytes, however they are read. -/
theorem text_unique {ls ls' : List Chunk} {t t' : Bytes} (hls : Filled ls) (hls' : Filled ls')
    (ht : ¬ Opens t) (ht' : ¬ Opens t') (h : text t ls = text t' ls') : t = t' := by
  induction ls generalizing ls' with
  | nil =>
    cases ls' with
    | nil => exact h
    | cons d ls' => exact absurd ⟨d, _, hls' d (by simp), h⟩ ht
  | cons c ls ih =>
    cases ls' with
    | nil => exact absurd ⟨c, _, hls c (by simp), h.symm⟩ ht'
    | cons d ls' =>
      exact ih (fun e he => hls e (List.mem_cons_of_mem c he)) (fun e he =>
        hls' e (List.mem_cons_of_mem d he))
        (chunk_unique h).2

theorem text_append (t : Bytes) (ls ls' : List Chunk) :
    text t (ls ++ ls') = text (text t ls') ls := by
  induction ls with
  | nil => rfl
  | cons c ls ih =>
    rw [List.cons_append, text, text, ih]

theorem text_further (t : Bytes) (ls : List Chunk) : text t ls = text [] ls ++ t := by
  induction ls with
  | nil => rfl
  | cons c ls ih =>
    rw [text, text, ih]
    simp only [List.append_assoc]

theorem not_opens_last {c : Chunk} (hc : c.body = []) (r : Bytes) :
    ¬ Opens (c.digits ++ crlf ++ (c.body ++ crlf ++ r)) := by
  rintro ⟨d, r', hd, h⟩
  exact hd ((chunk_unique h).1 ▸ hc)

theorem not_opens_nil : ¬ Opens [] := by
  rintro ⟨c, r, -, h⟩
  exact absurd h.symm (by simp [crlf])

/-- What a NULL buffer is encoded as. -/
def terminator : Bytes := ascii "0\r\n\r\n\r\n"

theorem terminator_append (r : Bytes) :
    terminator ++ r = zero.digits ++ crlf ++ (zero.body ++ crlf ++ (crlf ++ r)) := rfl

theorem not_opens_terminator (r : Bytes) : ¬ Opens (terminator ++ r) := by
  rw [terminator_append]
  exact not_opens_last rfl _

theorem Message.text_ne_terminator (m : Message) {ls : List Chunk} (hls : Filled ls)
    (further : Bytes) :
    m.text further ≠ Encoding.text (terminator ++ further) ls := by
  intro h
  have hlines :
      m.text further =
      Encoding.text (m.last.digits ++ crlf ++ (m.last.body ++ crlf ++ further)) m.chunks :=
    text_append further m.chunks [m.last]
  rw [hlines] at h
  have hend := text_unique m.filled hls (not_opens_last m.empty _) (not_opens_terminator _) h
  rw [terminator_append] at hend
  have hlen := congrArg List.length (chunk_unique hend).2
  simp [crlf] at hlen
  omega

theorem Message.text_ne_chunks (m : Message) {ls : List Chunk} (hls : Filled ls) :
    m.text [] ≠ Encoding.text [] ls := by
  intro h
  have hlines :
      m.text [] = Encoding.text (m.last.digits ++ crlf ++ (m.last.body ++ crlf ++ [])) m.chunks :=
    text_append [] m.chunks [m.last]
  rw [hlines] at h
  have hend := text_unique m.filled hls (not_opens_last m.empty _) not_opens_nil h
  exact absurd hend (by simp [crlf])

/-! ## Writing data -/

variable {σ : Type} {cb : WriteCallback σ} {accepted : σ → Bytes} {start : Bytes}

/-- A buffer with some bytes. -/
structure Data where
  block : Bytes
  len : Nat
  pos : 0 < len
  within : len ≤ block.length

def send (cb : WriteCallback σ) (x : httpp_encoding_t × σ) (d : Data) :
    C (httpp_encoding_t × σ) := do
  let (_, enc, user) ← httpp_encoding_write x.1 (some d.block) d.len (some cb) x.2
  return (enc, user)

/-- An encoding without metadata, with some bytes unsent. -/
structure Plain (enc : httpp_encoding_t) (u : Bytes) : Prop where
  process : enc.process = .chunked
  no_meta : enc.meta_write = []
  unsent : Unsent enc u

namespace Plain

variable {enc : httpp_encoding_t} {u : Bytes}

theorem extends_nil (h : Plain enc u) : Extends enc [] [] := by
  refine ⟨none, enc.grants, ?_, Later.refl _, rfl, .inl ⟨rfl, rfl⟩⟩
  unfold enc_chunked_write_extensions
  rw [if_pos h.no_meta, ← h.no_meta]
  rfl

theorem refuses (htakes : Takes cb) (h : Plain enc u) (s : σ) (buf : Option Bytes) (len : Nat)
    (hbusy : (flushed cb s u).1 ≠ []) :
    ∃ enc', httpp_encoding_write enc buf len (some cb) s =
        .ok (0, enc', (flushed cb (flushed cb s u).2 (flushed cb s u).1).2) ∧
      Plain enc' (flushed cb (flushed cb s u).2 (flushed cb s u).1).1 ∧
      enc'.grants = enc.grants := by
  obtain ⟨enc', hrun, hunsent, hsame⟩ := write_refuses htakes h.process h.unsent s buf len hbusy
  refine ⟨enc', hrun, ⟨?_, ?_, hunsent⟩, ?_⟩
  · rw [hsame]
    exact h.process
  · rw [hsame]
    exact h.no_meta
  · rw [hsame]

theorem queues (htakes : Takes cb) (h : Plain enc u) (s : σ) {buf : Option Bytes} {len : Nat}
    (hbuf : ∀ block, buf = some block → len ≤ block.length) (hfree : (flushed cb s u).1 = [])
    (hgrant : enc.grants .write_encoded 0 (frame [] buf (chunk_size buf len)).length = true) :
    ∃ enc', httpp_encoding_write enc buf len (some cb) s =
        .ok (chunk_size buf len, enc',
        (flushed cb (flushed cb s u).2 (frame [] buf (chunk_size buf len))).2) ∧
      Plain enc' (flushed cb (flushed cb s u).2 (frame [] buf (chunk_size buf len))).1 ∧
      ∀ n size, enc'.grants .write_encoded n size = enc.grants .write_encoded (n + 1) size := by
  have hsmall : (frame [] buf (chunk_size buf len)).length < 2 ^ 63 := by
    have hsize : chunk_size buf len ≤ 1048576 := by
      unfold chunk_size
      split_ifs <;> omega
    have hdigits : (hex (chunk_size buf len)).length ≤ 6 := hex_length_le (by decide) (by omega)
    unfold frame
    split_ifs
    · simp only [List.length_append, List.length_take, crlf, List.length_cons, List.length_nil]
      omega
    · simp only [List.length_append, List.length_take, crlf, List.length_cons, List.length_nil]
      omega
  obtain ⟨enc', hrun, hunsent, hproc, hmeta, -, hnext⟩ :=
    write_queues htakes h.process h.unsent s h.extends_nil hbuf hsmall hfree hgrant
  exact ⟨enc', hrun, ⟨hproc, hmeta, hunsent⟩, hnext⟩

theorem fails (htakes : Takes cb) (h : Plain enc u) (s : σ) {buf : Option Bytes} {len : Nat}
    (hbuf : ∀ block, buf = some block → len ≤ block.length) (hfree : (flushed cb s u).1 = [])
    (hrefused : ¬ enc.grants .write_encoded 0 (frame [] buf (chunk_size buf len)).length = true) :
    ∃ enc', httpp_encoding_write enc buf len (some cb) s = .ok (-1, enc', (flushed cb s u).2) ∧
      Plain enc' [] ∧
      ∀ n size, enc'.grants .write_encoded n size = enc.grants .write_encoded (n + 1) size := by
  obtain ⟨enc', hrun, hunsent, hproc, hmeta, -, hnext⟩ :=
    write_fails htakes h.process h.unsent s h.extends_nil hbuf hfree hrefused
  exact ⟨enc', hrun, ⟨hproc, hmeta, hunsent⟩, hnext⟩

end Plain

/-- The chunk for the first `n` bytes of a buffer. -/
def data_chunk (block : Bytes) (n : Nat) (hn : n ≤ block.length) (hmax : n ≤ 1048576) : Chunk where
  digits := hex n
  body := block.take n
  digits_ne_nil := hex_ne_nil n
  hexadecimal := hex_digits n
  size := by rw [hexNat_hex, List.length_take, Nat.min_eq_left hn]
  small := by
    rw [List.length_take]
    omega

/-- What was accepted and what is unsent are chunks with bodies. -/
def Streams (accepted : σ → Bytes) (start : Bytes) (x : httpp_encoding_t × σ) : Prop :=
  ∃ u ls, Plain x.1 u ∧ Filled ls ∧ accepted x.2 ++ u = start ++ text [] ls

theorem send_streams (hacc : Accepts cb accepted) (x : httpp_encoding_t × σ) (d : Data)
    (h : Streams accepted start x) : ∃ x', send cb x d = .ok x' ∧ Streams accepted start x' := by
  obtain ⟨u, ls, hplain, hls, hsent⟩ := h
  have hflush := hacc.flushed x.2 u
  have hrun {ret : Int} {enc : httpp_encoding_t} {user : σ}
      (h : httpp_encoding_write x.1 (some d.block) d.len (some cb) x.2 = .ok (ret, enc, user)) :
      send cb x d = .ok (enc, user) := by
    unfold send
    rw [h]
    rfl
  have hbuf : ∀ block, some d.block = some block → d.len ≤ block.length := by
    intro block hb
    cases hb
    exact d.within
  by_cases hfree : (flushed cb x.2 u).1 = []
  · rw [hfree, List.append_nil] at hflush
    by_cases hgrant :
        x.1.grants .write_encoded 0
          (frame [] (some d.block) (chunk_size (some d.block) d.len)).length = true
    · obtain ⟨enc, hwrite, hplain', -⟩ := hplain.queues hacc.takes x.2 hbuf hfree hgrant
      refine ⟨_, hrun hwrite, _, ls ++ [data_chunk d.block (min d.len 1048576) ?_ (by omega)],
        hplain', ?_, ?_⟩
      · have := d.within
        omega
      · intro c hc
        rcases List.mem_append.mp hc with hc | hc
        · exact hls c hc
        · rw [List.mem_singleton] at hc
          subst hc
          have := d.pos
          have := d.within
          rw [← List.length_pos_iff]
          simp only [data_chunk, List.length_take]
          omega
      · rw [hacc.flushed, hflush, hsent, text_append, text_further (text [] [_]) ls]
        simp [frame, chunk_size, text, data_chunk]
    · obtain ⟨enc, hwrite, hplain', -⟩ := hplain.fails hacc.takes x.2 hbuf hfree hgrant
      refine ⟨_, hrun hwrite, [], ls, hplain', hls, ?_⟩
      rw [List.append_nil, hflush, hsent]
  · obtain ⟨enc, hwrite, hplain', -⟩ := hplain.refuses hacc.takes x.2 (some d.block) d.len hfree
    refine ⟨_, hrun hwrite, _, ls, hplain', hls, ?_⟩
    rw [hacc.flushed, hflush, hsent]

theorem Fresh.streams {grants : Grants} {enc : httpp_encoding_t} (hnew : Fresh grants enc) (s : σ) :
    Streams accepted (accepted s) (enc, s) := by
  rw [hnew.eq]
  exact ⟨[], [], ⟨rfl, rfl, Holds.null, fun _ => rfl, by decide⟩, by simp [Filled], rfl⟩

/-! ## The whole body -/

/-- A backend that takes everything. -/
structure TakesAll (cb : WriteCallback σ) (accepted : σ → Bytes) : Prop where
  step : ∀ s data, (cb s data).1 = data.length ∧ accepted (cb s data).2 = accepted s ++ data

theorem TakesAll.accepts (h : TakesAll cb accepted) : Accepts cb accepted := by
  constructor
  intro s data
  obtain ⟨hret, htook⟩ := h.step s data
  by_cases hdata : data = []
  · subst hdata
    left
    refine ⟨by rw [hret]; simp, by rw [htook, List.append_nil]⟩
  · right
    refine ⟨data.length, List.length_pos_iff.mpr hdata, le_rfl, hret,
      by rw [htook, List.take_length]⟩

theorem TakesAll.flushed (h : TakesAll cb accepted) (s : σ) (u : Bytes) :
    (Encoding.flushed cb s u).1 = [] := by
  unfold Encoding.flushed
  split_ifs
  · rfl
  · rw [(h.step s u).1]
    simp

/-- The writes of a session, and the one that ends it. -/
def session (cb : WriteCallback σ) (x : httpp_encoding_t × σ) (data : List Data) (len : Nat) :
    C (httpp_encoding_t × σ) := do
  let (enc, user) ← data.foldlM (send cb) x
  let (_, enc, user) ← httpp_encoding_write enc none len (some cb) user
  return (enc, user)

theorem frame_none (len : Nat) : frame [] none (chunk_size none len) = terminator := rfl

/-- There is a second CR LF behind the one that ends a chunked body. -/
theorem session_spec (hall : TakesAll cb accepted) {grants : Grants} {enc : httpp_encoding_t}
    (hnew : Fresh grants enc) (s : σ) (data : List Data) (len : Nat) :
    ∃ x ls, session cb (enc, s) data len = .ok x ∧ Filled ls ∧
      (accepted x.2 = accepted s ++ text [] ls ∨
      accepted x.2 = accepted s ++ text terminator ls) := by
  obtain ⟨⟨enc1, s1⟩, hrun, u, ls, hplain, hls, hsent⟩ :=
    run_invariant (send_streams hall.accepts) (hnew.streams s) data
  have htakes := hall.accepts.takes
  have hfree := hall.flushed s1 u
  have hflush := hall.accepts.flushed s1 u
  rw [hfree, List.append_nil] at hflush
  have hbuf : ∀ block, (none : Option Bytes) = some block → len ≤ block.length := by
    intro block hb
    cases hb
  have hsession {ret : Int} {enc' : httpp_encoding_t} {s' : σ}
      (h : httpp_encoding_write enc1 none len (some cb) s1 = .ok (ret, enc', s')) :
      session cb (enc, s) data len = .ok (enc', s') := by
    unfold session
    rw [hrun, ok_bind]
    simp only [h, ok_bind, pure_eq_ok]
  by_cases hgrant : enc1.grants .write_encoded 0 (frame [] none (chunk_size none len)).length = true
  · obtain ⟨enc', hwrite, -, -⟩ := hplain.queues htakes s1 hbuf hfree hgrant
    refine ⟨_, ls, hsession hwrite, hls, .inr ?_⟩
    rw [frame_none] at *
    have hlast := hall.accepts.flushed (flushed cb s1 u).2 terminator
    rw [hall.flushed, List.append_nil] at hlast
    show accepted (flushed cb (flushed cb s1 u).2 terminator).2 = _
    rw [hlast, hflush, hsent, text_further terminator ls, List.append_assoc]
  · obtain ⟨enc', hwrite, -, -⟩ := hplain.fails htakes s1 hbuf hfree hgrant
    refine ⟨_, ls, hsession hwrite, hls, .inl ?_⟩
    show accepted (flushed cb s1 u).2 = _
    rw [hflush, hsent]

/-- **No chunked body.** What a session sends is never a chunked body and nothing else. -/
theorem session_malformed (hall : TakesAll cb accepted) {grants : Grants} {enc : httpp_encoding_t}
    (hnew : Fresh grants enc) (s : σ) (data : List Data) (len : Nat) :
    ∃ x, session cb (enc, s) data len = .ok x ∧
      ¬ ∃ m : Message, accepted x.2 = accepted s ++ m.text [] := by
  obtain ⟨x, ls, hrun, hls, hsent⟩ := session_spec hall hnew s data len
  refine ⟨x, hrun, ?_⟩
  rintro ⟨m, hm⟩
  rcases hsent with hsent | hsent
  · exact m.text_ne_chunks hls (List.append_cancel_left (hm.symm.trans hsent))
  · refine m.text_ne_terminator hls [] ?_
    rw [List.append_nil]
    exact List.append_cancel_left (hm.symm.trans hsent)

def sink : WriteCallback Bytes := fun s data => (data.length, s ++ data)

theorem sink_takes_all : TakesAll sink id := ⟨fun _ _ => ⟨rfl, rfl⟩⟩

/-- A session without data. -/
theorem session_not_chunked :
    ¬ ∀ (cb : WriteCallback Bytes) (accepted : Bytes → Bytes) (grants : Grants)
      (enc : httpp_encoding_t) (s : Bytes) (data : List Data) (len : Nat), TakesAll cb accepted →
      Fresh grants enc →
        ∃ x, session cb (enc, s) data len = .ok x ∧
        ∃ m : Message, accepted x.2 = accepted s ++ m.text [] := by
  intro h
  obtain ⟨x, hrun, m, hm⟩ :=
    h sink id (fun _ _ _ => true) (chunked_encoding fun _ _ _ => true) [] [] 0
      sink_takes_all (fresh_chunked rfl)
  have hsent : (match session sink (chunked_encoding fun _ _ _ => true, []) [] 0 with
      | .ok x => decide (x.2 = terminator)
      | .error _ => false) = true := by decide +kernel
  rw [hrun] at hsent
  have hnone : Filled [] := by simp [Filled]
  refine m.text_ne_terminator hnone [] ?_
  rw [List.append_nil]
  exact hm.symm.trans (of_decide_eq_true hsent)

def hello : Data := ⟨ascii "hello", 5, by decide, by decide⟩

/-- Five bytes and the end. -/
theorem session_malformed_hello :
    ∃ x, session sink (chunked_encoding fun _ _ _ => true, []) [hello] 0 = .ok x ∧
      ¬ ∃ m : Message, id x.2 = id [] ++ m.text [] :=
  session_malformed sink_takes_all (fresh_chunked rfl) [] [hello] 0

/-! ## Ending under back-pressure -/

/-- The loop that writes NULL until nothing is pending. -/
inductive Ends (cb : WriteCallback σ) : httpp_encoding_t → σ → httpp_encoding_t → σ → Prop where
  | stop {enc enc' : httpp_encoding_t} {s s' : σ} {ret : Int} :
    httpp_encoding_write enc none 0 (some cb) s = .ok (ret, enc', s') →
    httpp_encoding_pending enc' = 0 →
      Ends cb enc s enc' s'
  | again {enc enc1 enc' : httpp_encoding_t} {s s1 s' : σ} {ret : Int} :
    httpp_encoding_write enc none 0 (some cb) s = .ok (ret, enc1, s1) →
    httpp_encoding_pending enc1 ≠ 0 →
      Ends cb enc1 s1 enc' s' → Ends cb enc s enc' s'

/-- A backend that takes at least a byte. -/
structure Keen (cb : WriteCallback σ) (accepted : σ → Bytes) : Prop where
  step : ∀ s data, data ≠ [] →
    ∃ n : Nat, 0 < n ∧ n ≤ data.length ∧ (cb s data).1 = n ∧
      accepted (cb s data).2 = accepted s ++ data.take n
  quiet : ∀ s, (cb s []).1 ≤ 0 ∧ accepted (cb s []).2 = accepted s

theorem Keen.accepts (h : Keen cb accepted) : Accepts cb accepted := by
  constructor
  intro s data
  by_cases hdata : data = []
  · subst hdata
    exact .inl (h.quiet s)
  · exact .inr (h.step s data hdata)

theorem Keen.shrinks (h : Keen cb accepted) (s : σ) {u : Bytes} (hu : u ≠ []) :
    (flushed cb s u).1.length < u.length := by
  obtain ⟨n, hn, hle, hret, -⟩ := h.step s u hu
  unfold flushed
  rw [if_neg hu, List.length_drop]
  omega

/-- The number of calls in which the backend takes `u`, and the backend after them, if `fuel` calls
are enough. -/
def drained (cb : WriteCallback σ) : Nat → σ → Bytes → Nat × σ
  | 0, s, _ => (0, s)
  | fuel + 1, s, u =>
    if u = [] then (0, s)
    else
      let rest := drained cb fuel (flushed cb s u).2 (flushed cb s u).1
      (rest.1 + 1, rest.2)

/-- Every call takes a byte at least. -/
def takes (cb : WriteCallback σ) (s : σ) (u : Bytes) : Nat × σ := drained cb u.length s u

theorem drained_fuel (hkeen : Keen cb accepted) {fuel : Nat} {s : σ} {u : Bytes}
    (h : u.length ≤ fuel) :
    drained cb fuel s u = takes cb s u := by
  induction fuel using Nat.strong_induction_on generalizing s u with
  | _ fuel ih =>
    unfold takes
    by_cases hu : u = []
    · subst hu
      cases fuel with
      | zero => rfl
      | succ fuel => rfl
    · have hshrinks := hkeen.shrinks s hu
      have hpos := List.length_pos_iff.mpr hu
      obtain ⟨f, rfl⟩ : ∃ f, fuel = f + 1 := ⟨fuel - 1, by omega⟩
      obtain ⟨l, hl⟩ : ∃ l, u.length = l + 1 := ⟨u.length - 1, by omega⟩
      rw [hl, drained, drained, if_neg hu, if_neg hu, ih f (by omega) (by omega),
        ih l (by omega) (by omega)]

theorem takes_step (hkeen : Keen cb accepted) (s : σ) {u : Bytes} (hu : u ≠ []) :
    takes cb s u = ((takes cb (flushed cb s u).2 (flushed cb s u).1).1 + 1,
      (takes cb (flushed cb s u).2 (flushed cb s u).1).2) := by
  have hshrinks := hkeen.shrinks s hu
  obtain ⟨l, hl⟩ : ∃ l, u.length = l + 1 := ⟨u.length - 1, by omega⟩
  unfold takes
  rw [hl, drained, if_neg hu, drained_fuel hkeen (by omega)]
  rfl

theorem takes_nil (s : σ) : takes cb s [] = (0, s) := rfl

/-! ### Rounds -/

/-- The loop ends with exactly these bytes accepted. -/
def EndsWith (cb : WriteCallback σ) (accepted : σ → Bytes) (goal : Bytes) (enc : httpp_encoding_t)
    (s : σ) : Prop :=
  ∃ enc' s', Ends cb enc s enc' s' ∧ accepted s' = goal

variable {goal : Bytes} {enc : httpp_encoding_t} {u : Bytes} {s : σ}

theorem endsWith_round {enc1 : httpp_encoding_t} {s1 : σ} {ret : Int} {u1 : Bytes}
    (hwrite : httpp_encoding_write enc none 0 (some cb) s = .ok (ret, enc1, s1))
    (h : Plain enc1 u1) :
    EndsWith cb accepted goal enc s ↔
      if u1 = [] then accepted s1 = goal else EndsWith cb accepted goal enc1 s1 := by
  have hpending := h.unsent.pending
  have hzero : httpp_encoding_pending enc1 = 0 ↔ u1 = [] := by
    rw [hpending, Int.natCast_eq_zero, List.length_eq_zero_iff]
  constructor
  · rintro ⟨enc', s', hends, hgoal⟩
    cases hends with
    | stop hw hp =>
      rw [hwrite] at hw
      cases hw
      rw [if_pos (hzero.mp hp)]
      exact hgoal
    | again hw hp hrest =>
      rw [hwrite] at hw
      cases hw
      rw [if_neg fun hu => hp (hzero.mpr hu)]
      exact ⟨enc', s', hrest, hgoal⟩
  · intro hcase
    split_ifs at hcase with hu
    · exact ⟨enc1, s1, .stop hwrite (hzero.mpr hu), hcase⟩
    · obtain ⟨enc', s', hends, hgoal⟩ := hcase
      exact ⟨enc', s', .again hwrite (fun hp => hu (hzero.mp hp)) hends, hgoal⟩

theorem no_buffer (block : Bytes) (h : (none : Option Bytes) = some block) : 0 ≤ block.length := by
  cases h

theorem endsWith_busy (goal : Bytes) (hkeen : Keen cb accepted) (h : Plain enc u)
    (hbusy : (flushed cb s u).1 ≠ []) :
    ∃ enc', Plain enc' (flushed cb (flushed cb s u).2 (flushed cb s u).1).1 ∧
      enc'.grants = enc.grants ∧
      (EndsWith cb accepted goal enc s ↔
        if (flushed cb (flushed cb s u).2 (flushed cb s u).1).1 = [] then
          accepted (flushed cb (flushed cb s u).2 (flushed cb s u).1).2 = goal
        else EndsWith cb accepted goal enc'
        (flushed cb (flushed cb s u).2 (flushed cb s u).1).2) := by
  obtain ⟨enc', hwrite, hplain, hgrants⟩ := h.refuses hkeen.accepts.takes s none 0 hbusy
  exact ⟨enc', hplain, hgrants, endsWith_round hwrite hplain⟩

/-- The answer to the next request for memory for a terminator, or a later one. -/
def granted (enc : httpp_encoding_t) (n : Nat) : Prop :=
  enc.grants .write_encoded n terminator.length = true

theorem endsWith_queues (goal : Bytes) (hkeen : Keen cb accepted) (h : Plain enc u)
    (hfree : (flushed cb s u).1 = []) (hgrant : granted enc 0) :
    ∃ enc', Plain enc' (flushed cb (flushed cb s u).2 terminator).1 ∧
      (∀ n, granted enc' n ↔ granted enc (n + 1)) ∧
      (EndsWith cb accepted goal enc s ↔
        if (flushed cb (flushed cb s u).2 terminator).1 = [] then
          accepted (flushed cb (flushed cb s u).2 terminator).2 = goal
        else EndsWith cb accepted goal enc' (flushed cb (flushed cb s u).2 terminator).2) := by
  obtain ⟨enc', hwrite, hplain, hnext⟩ := h.queues hkeen.accepts.takes s no_buffer hfree hgrant
  refine ⟨enc', hplain, ?_, endsWith_round hwrite hplain⟩
  intro n
  rw [granted, granted, hnext]

theorem endsWith_fails (hkeen : Keen cb accepted) (h : Plain enc u)
    (hfree : (flushed cb s u).1 = []) (hrefused : ¬ granted enc 0) :
    EndsWith cb accepted goal enc s ↔ accepted (flushed cb s u).2 = goal := by
  obtain ⟨enc', hwrite, hplain, -⟩ := h.fails hkeen.accepts.takes s no_buffer hfree hrefused
  rw [endsWith_round hwrite hplain, if_pos rfl]

/-- A round adds a terminator or nothing. -/
theorem round_adds (hkeen : Keen cb accepted) (h : Plain enc u) (s : σ) :
    ∃ ret enc1 s1 u1, httpp_encoding_write enc none 0 (some cb) s = .ok (ret, enc1, s1) ∧
      Plain enc1 u1 ∧
      ∃ k : Nat, accepted s1 ++ u1 = accepted s ++ u ++ (List.replicate k terminator).flatten := by
  have htakes := hkeen.accepts.takes
  have hflush := hkeen.accepts.flushed s u
  by_cases hfree : (flushed cb s u).1 = []
  · rw [hfree, List.append_nil] at hflush
    by_cases hgrant : granted enc 0
    · obtain ⟨enc1, hwrite, hplain, -⟩ := h.queues htakes s no_buffer hfree hgrant
      refine ⟨_, enc1, _, _, hwrite, hplain, 1, ?_⟩
      rw [frame_none, hkeen.accepts.flushed, hflush]
      simp
    · obtain ⟨enc1, hwrite, hplain, -⟩ := h.fails htakes s no_buffer hfree hgrant
      refine ⟨_, enc1, _, _, hwrite, hplain, 0, ?_⟩
      rw [hflush]
      simp
  · obtain ⟨enc1, hwrite, hplain, -⟩ := h.refuses htakes s none 0 hfree
    refine ⟨_, enc1, _, _, hwrite, hplain, 0, ?_⟩
    rw [hkeen.accepts.flushed, hflush]
    simp

theorem Ends.adds (hkeen : Keen cb accepted) {enc' : httpp_encoding_t} {s' : σ}
    (hends : Ends cb enc s enc' s') (h : Plain enc u) :
    ∃ k : Nat, accepted s' = accepted s ++ u ++ (List.replicate k terminator).flatten := by
  induction hends generalizing u with
  | @stop enc enc' s s' ret hwrite hpending =>
    obtain ⟨ret1, enc1, s1, u1, hround, hplain, k, hadds⟩ := round_adds hkeen h s
    rw [hwrite] at hround
    cases hround
    have hu1 : u1 = [] := by
      rw [hplain.unsent.pending, Int.natCast_eq_zero, List.length_eq_zero_iff] at hpending
      exact hpending
    rw [hu1, List.append_nil] at hadds
    exact ⟨k, hadds⟩
  | @again enc enc1 enc' s s1 s' ret hwrite hpending hrest ih =>
    obtain ⟨ret2, enc2, s2, u2, hround, hplain, k, hadds⟩ := round_adds hkeen h s
    rw [hwrite] at hround
    cases hround
    obtain ⟨k', hadds'⟩ := ih hplain
    refine ⟨k + k', ?_⟩
    rw [hadds', hadds, List.replicate_add, List.flatten_append, ← List.append_assoc]

/-- With a second terminator on its way there is no good end. -/
theorem not_endsWith (hkeen : Keen cb accepted) (h : Plain enc u)
    (hlong : goal.length < (accepted s ++ u).length) : ¬ EndsWith cb accepted goal enc s := by
  rintro ⟨enc', s', hends, hgoal⟩
  obtain ⟨k, hadds⟩ := hends.adds hkeen h
  have := congrArg List.length (hgoal.symm.trans hadds)
  rw [List.length_append] at this
  omega

/-! ### Who takes the last byte -/

theorem endsWith_sending (hkeen : Keen cb accepted) (h : Plain enc u) (hu : u ≠ [])
    (hsent : accepted s ++ u = goal) :
    EndsWith cb accepted goal enc s ↔ Even (takes cb s u).1 ∨ ¬ granted enc 0 := by
  induction hn : u.length using Nat.strong_induction_on generalizing enc s u with
  | _ n ih =>
    have hflush := hkeen.accepts.flushed s u
    have hshrinks := hkeen.shrinks s hu
    rw [takes_step hkeen s hu]
    by_cases hfree : (flushed cb s u).1 = []
    · have hgoal : accepted (flushed cb s u).2 = goal := by
        rw [← hsent, ← hflush, hfree, List.append_nil]
      have hodd : ¬ Even ((takes cb (flushed cb s u).2 (flushed cb s u).1).1 + 1) := by
        rw [hfree, takes_nil]
        exact Nat.not_even_one
      by_cases hgrant : granted enc 0
      · obtain ⟨enc', hplain, -, hround⟩ := endsWith_queues goal hkeen h hfree hgrant
        have hadded := hkeen.accepts.flushed (flushed cb s u).2 terminator
        have hlong : goal.length < (accepted (flushed cb (flushed cb s u).2 terminator).2 ++
            (flushed cb (flushed cb s u).2 terminator).1).length := by
          rw [hadded, hgoal, List.length_append]
          exact Nat.lt_add_of_pos_right (by decide)
        rw [hround]
        simp only [hodd, hgrant, not_true, or_self, iff_false]
        split_ifs with hv
        · intro heq
          rw [hv, heq, List.append_nil] at hlong
          omega
        · exact not_endsWith hkeen hplain hlong
      · rw [endsWith_fails hkeen h hfree hgrant]
        simp [hgoal, hgrant]
    · obtain ⟨enc', hplain, hgrants, hround⟩ := endsWith_busy goal hkeen h hfree
      have hflush2 := hkeen.accepts.flushed (flushed cb s u).2 (flushed cb s u).1
      rw [hflush, hsent] at hflush2
      have hshrinks2 := hkeen.shrinks (flushed cb s u).2 hfree
      have hgranted : granted enc' 0 ↔ granted enc 0 := by rw [granted, hgrants, granted]
      rw [hround, takes_step hkeen _ hfree]
      split_ifs with hv
      · rw [hv, List.append_nil] at hflush2
        rw [hv, takes_nil]
        simp [hflush2]
      · rw [ih _ (by omega) hplain hv hflush2 rfl, hgranted]
        simp [Nat.even_add_one]

theorem endsWith_idle {base : Bytes} (hkeen : Keen cb accepted) (h : Plain enc u)
    (hfree : (flushed cb s u).1 = []) (hsent : accepted (flushed cb s u).2 = base) :
    EndsWith cb accepted (base ++ terminator) enc s ↔
      granted enc 0 ∧ (Odd (takes cb (flushed cb s u).2 terminator).1 ∨ ¬ granted enc 1) := by
  by_cases hgrant : granted enc 0
  · obtain ⟨enc', hplain, hgrants, hround⟩ :=
      endsWith_queues (base ++ terminator) hkeen h hfree hgrant
    have hflush := hkeen.accepts.flushed (flushed cb s u).2 terminator
    rw [hsent] at hflush
    rw [hround, takes_step hkeen _ (by decide : terminator ≠ [])]
    split_ifs with hv
    · rw [hv, List.append_nil] at hflush
      rw [hv, takes_nil]
      simp [hflush, hgrant]
    · rw [endsWith_sending hkeen hplain hv hflush, hgrants 0]
      simp [hgrant, Nat.odd_add_one]
  · rw [endsWith_fails hkeen h hfree hgrant, hsent]
    simp [hgrant, terminator, ascii]

theorem endsWith_iff {base : Bytes} (hkeen : Keen cb accepted) (h : Plain enc u)
    (hsent : accepted s ++ u = base) :
    EndsWith cb accepted (base ++ terminator) enc s ↔
      (u = [] ∨ Odd (takes cb s u).1) ∧ granted enc 0 ∧
        (Odd (takes cb (takes cb s u).2 terminator).1 ∨ ¬ granted enc 1) := by
  induction hn : u.length using Nat.strong_induction_on generalizing enc s u with
  | _ n ih =>
    have hflush := hkeen.accepts.flushed s u
    by_cases hu : u = []
    · subst hu
      have hfree : (flushed cb s []).1 = [] := rfl
      rw [endsWith_idle hkeen h hfree (by rw [← hsent, ← hflush, hfree, List.append_nil])]
      simp [takes_nil, flushed]
    · have hshrinks := hkeen.shrinks s hu
      rw [takes_step hkeen s hu]
      by_cases hfree : (flushed cb s u).1 = []
      · rw [endsWith_idle hkeen h hfree (by rw [← hsent, ← hflush, hfree, List.append_nil]),
          hfree, takes_nil]
        simp
      · obtain ⟨enc', hplain, hgrants, hround⟩ := endsWith_busy (base ++ terminator) hkeen h hfree
        have hflush2 := hkeen.accepts.flushed (flushed cb s u).2 (flushed cb s u).1
        rw [hflush, hsent] at hflush2
        have hshrinks2 := hkeen.shrinks (flushed cb s u).2 hfree
        have hgranted (n : Nat) : granted enc' n ↔ granted enc n := by
          rw [granted, hgrants, granted]
        rw [hround, takes_step hkeen _ hfree]
        split_ifs with hv
        · rw [hv, List.append_nil] at hflush2
          rw [hv, takes_nil, hflush2]
          have htwo : ¬ Odd (0 + 1 + 1) := by decide
          simp [hu, htwo, terminator, ascii]
        · rw [ih _ (by omega) hplain hflush2 rfl, hgranted, hgranted]
          simp [hu, hv, Nat.odd_add_one]

/-! ### The end of a session -/

/-- There is one last chunk, and no chunk follows it. -/
def Terminated (accepted : σ → Bytes) (start : Bytes) (s : σ) : Prop :=
  ∃ ls, Filled ls ∧ accepted s = start ++ text terminator ls

/-- The first flush of a call takes the last pending byte, and the second flush of a call the last
byte of the terminator. -/
def Aligned (cb : WriteCallback σ) (enc : httpp_encoding_t) (s : σ) : Prop :=
  (unsent enc = [] ∨ Odd (takes cb s (unsent enc)).1) ∧ granted enc 0 ∧
    (Odd (takes cb (takes cb s (unsent enc)).2 terminator).1 ∨ ¬ granted enc 1)

theorem not_opens_terminators (k : Nat) : ¬ Opens (List.replicate k terminator).flatten := by
  cases k with
  | zero => exact not_opens_nil
  | succ k =>
    rw [List.replicate_succ, List.flatten_cons]
    exact not_opens_terminator _

theorem Streams.terminated_iff (hkeen : Keen cb accepted) (h : Streams accepted start (enc, s)) :
    (∃ enc' s', Ends cb enc s enc' s' ∧ Terminated accepted start s') ↔ Aligned cb enc s := by
  obtain ⟨u, ls, hplain, hls, hsent⟩ := h
  have hunsent : unsent enc = u := hplain.unsent.holds.left
  rw [Aligned, hunsent, ← endsWith_iff hkeen hplain hsent]
  constructor
  · rintro ⟨enc', s', hends, ls', hls', hsent'⟩
    refine ⟨enc', s', hends, ?_⟩
    obtain ⟨k, hadds⟩ := hends.adds hkeen hplain
    change accepted s ++ u = start ++ text [] ls at hsent
    rw [hsent, List.append_assoc, ← text_further] at hadds
    have hend := text_unique hls' hls (not_opens_terminators 1) (not_opens_terminators k)
      (List.append_cancel_left (hsent'.symm.trans hadds))
    rw [hadds, text_further, ← hend, List.append_assoc]
    rfl
  · rintro ⟨enc', s', hends, hgoal⟩
    refine ⟨enc', s', hends, ls, hls, ?_⟩
    rw [hgoal, text_further terminator ls, List.append_assoc]

/-- **Ending a stream.** The loop ends, with one last chunk at the very end, only for backends that
take the pending bytes and the terminator in odd numbers of calls. -/
theorem finish_iff (hkeen : Keen cb accepted) {grants : Grants} {enc0 : httpp_encoding_t}
    (hnew : Fresh grants enc0) {s0 : σ} {data : List Data}
    (hrun : data.foldlM (send cb) (enc0, s0) = .ok (enc, s)) :
    (∃ enc' s', Ends cb enc s enc' s' ∧ Terminated accepted (accepted s0) s') ↔
      Aligned cb enc s := by
  obtain ⟨x, hrun', hstreams⟩ :=
    run_invariant (send_streams hkeen.accepts) (hnew.streams s0) data
  rw [hrun] at hrun'
  cases hrun'
  exact hstreams.terminated_iff hkeen

/-- A backend that takes at most `n` bytes a call. -/
def sip (n : Nat) : WriteCallback Bytes := fun s data =>
  ((min n data.length : Nat), s ++ data.take (min n data.length))

theorem sip_keen {n : Nat} (hn : 0 < n) : Keen (sip n) id := by
  constructor
  · intro s data hdata
    have hpos := List.length_pos_iff.mpr hdata
    refine ⟨min n data.length, by omega, Nat.min_le_right _ _, rfl, rfl⟩
  · intro s
    constructor
    · simp [sip]
    · simp [sip]

/-- With four bytes a call the loop queues terminators for ever. -/
theorem finish_repeats :
    ¬ ∀ (cb : WriteCallback Bytes) (accepted : Bytes → Bytes) (grants : Grants)
      (enc0 enc : httpp_encoding_t) (s0 s : Bytes) (data : List Data), Keen cb accepted →
      Fresh grants enc0 →
        data.foldlM (send cb) (enc0, s0) = .ok (enc, s) →
          ∃ enc' s', Ends cb enc s enc' s' ∧ Terminated accepted (accepted s0) s' := by
  intro h
  have hends :=
    h (sip 4) id (fun _ _ _ => true) (chunked_encoding fun _ _ _ => true) _ [] _ []
      (sip_keen (by decide))
    (fresh_chunked rfl) rfl
  have hstreams : Streams id (id []) (chunked_encoding fun _ _ _ => true, []) :=
    (fresh_chunked rfl).streams []
  rw [hstreams.terminated_iff (sip_keen (by decide))] at hends
  obtain ⟨-, -, hodd | hrefused⟩ := hends
  · exact absurd hodd (by decide)
  · exact hrefused rfl

/-- Five bytes, to a backend that takes seven bytes a call. -/
theorem finish_iff_hello :
    ∃ enc s, [hello].foldlM (send (sip 7)) (chunked_encoding fun _ _ _ => true, []) = .ok (enc, s) ∧
      ((∃ enc' s', Ends (sip 7) enc s enc' s' ∧ Terminated id (id []) s') ↔
      Aligned (sip 7) enc s) := by
  have hkeen : Keen (sip 7) id := sip_keen (by decide)
  have hnew : Fresh (fun _ _ _ => true) (chunked_encoding fun _ _ _ => true) := fresh_chunked rfl
  have hstreams : Streams id (id []) (chunked_encoding fun _ _ _ => true, []) := hnew.streams []
  obtain ⟨⟨enc, s⟩, hrun, -⟩ := run_invariant (send_streams hkeen.accepts) hstreams [hello]
  exact ⟨enc, s, hrun, finish_iff hkeen hnew hrun⟩

end Encoding
