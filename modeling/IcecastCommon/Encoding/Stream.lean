import IcecastCommon.Encoding.Code

/-!
# Chunked streams

The streams that a peer may send, the backends that hand them over in fragments, and what it
means for a buffer to hold bytes.
-/

namespace Encoding

open Lib

/-! ## Chunks -/

/-- A chunk. One without a body is a last chunk. -/
structure Chunk where
  digits : Bytes
  body : Bytes
  digits_ne_nil : digits ≠ []
  hexadecimal : ∀ b ∈ digits, isxdigit b
  size : hexNat digits = body.length
  /-- The size fits a `size_t` together with the `"\r\n"` after the body. -/
  small : body.length + 2 < 2 ^ 64

/-- The bytes of the chunks, with what comes after them. -/
def text (further : Bytes) : List Chunk → Bytes
  | [] => further
  | c :: ls => c.digits ++ crlf ++ (c.body ++ crlf ++ text further ls)

def bodies (ls : List Chunk) : Bytes := ls.flatMap Chunk.body

/-- A last chunk. -/
def zero : Chunk := ⟨ascii "0", [], by decide, by decide +kernel, by decide, by decide⟩

theorem zero_body : zero.body = [] := rfl

/-- Only the final chunk is a last chunk. -/
def Closing : List Chunk → Prop
  | [] => True
  | c :: ls => (c.body = [] ↔ ls = []) ∧ Closing ls

/-- A whole message. -/
structure Message where
  chunks : List Chunk
  last : Chunk
  filled : ∀ c ∈ chunks, c.body ≠ []
  empty : last.body = []

namespace Message

variable (m : Message)

/-- The chunks with the last chunk. -/
def lines : List Chunk := m.chunks ++ [m.last]

theorem lines_ne_nil : m.lines ≠ [] := by simp [lines]

theorem closing : Closing m.lines := by
  have h : ∀ ls : List Chunk, (∀ c ∈ ls, c.body ≠ []) → Closing (ls ++ [m.last]) := by
    intro ls hls
    induction ls with
    | nil => simp [Closing, m.empty]
    | cons c ls ih =>
      refine ⟨?_, ih fun d hd => hls d (List.mem_cons_of_mem c hd)⟩
      simpa using hls c (by simp)
  exact h m.chunks m.filled

theorem bodies_lines : bodies m.lines = bodies m.chunks := by
  simp [bodies, lines, m.empty]

end Message

theorem CR_not_digit : ¬ isxdigit CR := by decide

theorem LF_not_digit : ¬ isxdigit LF := by decide

/-! ## Backends -/

variable {σ : Type}

/-- Asked for `n` bytes, the backend hands over at most as many, or none of them. It may have used
the whole buffer. -/
structure Answers (cb : ReadCallback σ) : Prop where
  within : ∀ s n, (cb s n).1.2.length ≤ n
  step : ∀ s n, ((cb s n).1.1 = 0 ∨ (cb s n).1.1 = -1) ∨
    (0 < (cb s n).1.1 ∧ (cb s n).1.1 ≤ (cb s n).1.2.length)

/-- Asked for `n` bytes, the backend hands over some of the bytes that are left, or none of them. -/
structure Feeds (cb : ReadCallback σ) (left : σ → Bytes) : Prop where
  within : ∀ s n, (cb s n).1.2.length ≤ n
  step : ∀ s n,
    (((cb s n).1.1 = 0 ∨ (cb s n).1.1 = -1) ∧ left (cb s n).2 = left s) ∨
    ((cb s n).1.2 ≠ [] ∧ (cb s n).1.1 = (cb s n).1.2.length ∧
      left s = (cb s n).1.2 ++ left (cb s n).2)

theorem Answers.receive {cb : ReadCallback σ} (h : Answers cb) (s : σ) (n : Nat) :
    receive cb s n = .ok (cb s n) := by
  unfold Encoding.receive
  rw [if_pos (h.within s n)]
  rfl

theorem Answers.fits {cb : ReadCallback σ} (h : Answers cb) (s : σ) (n : Nat) :
    (cb s n).1.1.toNat ≤ (cb s n).1.2.length := by
  rcases h.step s n with hq | ⟨-, hle⟩ <;> omega

theorem Answers.count {cb : ReadCallback σ} (h : Answers cb) (s : σ) (n : Nat) (fill : Bytes) :
    (((cb s n).1.2 ++ fill).take (cb s n).1.1.toNat).length = (cb s n).1.1.toNat := by
  have hfits := h.fits s n
  rw [List.length_take, List.length_append]
  omega

theorem Feeds.answers {cb : ReadCallback σ} {left : σ → Bytes} (h : Feeds cb left) :
    Answers cb := by
  refine ⟨h.within, fun s n => ?_⟩
  rcases h.step s n with ⟨hq, -⟩ | ⟨hsome, hret, -⟩
  · exact .inl hq
  · have hpos := List.length_pos_iff.mpr hsome
    exact .inr ⟨by omega, hret.le⟩

theorem Feeds.receive {cb : ReadCallback σ} {left : σ → Bytes} (h : Feeds cb left)
    (s : σ) (n : Nat) :
    receive cb s n = .ok (cb s n) := h.answers.receive s n

theorem Feeds.stored {cb : ReadCallback σ} {left : σ → Bytes} (h : Feeds cb left) {s : σ} {n : Nat}
    (hret : ¬ (cb s n).1.1 < 1) : (cb s n).1.1.toNat = (cb s n).1.2.length := by
  rcases h.step s n with ⟨hq, -⟩ | ⟨-, hq, -⟩ <;> omega

/-- Asked for bytes, the backend hands over some as long as there are any. It keeps count of
the fragments. -/
structure Fragments (cb : ReadCallback σ) (left : σ → Bytes) (handed : σ → List Bytes) : Prop where
  gives : ∀ s n, 0 < n → left s ≠ [] →
    (cb s n).1.2 ≠ [] ∧ (cb s n).1.2.length ≤ n ∧ (cb s n).1.1 = (cb s n).1.2.length ∧
      left s = (cb s n).1.2 ++ left (cb s n).2 ∧ handed (cb s n).2 = handed s ++ [(cb s n).1.2]
  quiet : ∀ s n, n = 0 ∨ left s = [] →
    (cb s n).1.2.length ≤ n ∧ ((cb s n).1.1 = 0 ∨ (cb s n).1.1 = -1) ∧ left (cb s n).2 = left s ∧
      handed (cb s n).2 = handed s

theorem Fragments.feeds {cb : ReadCallback σ} {left : σ → Bytes} {handed : σ → List Bytes}
    (h : Fragments cb left handed) : Feeds cb left := by
  constructor
  · intro s n
    by_cases hq : n = 0 ∨ left s = []
    · exact (h.quiet s n hq).1
    · rw [not_or] at hq
      exact (h.gives s n (by omega) hq.2).2.1
  · intro s n
    by_cases hq : n = 0 ∨ left s = []
    · obtain ⟨-, hret, hleft, -⟩ := h.quiet s n hq
      exact .inl ⟨hret, hleft⟩
    · rw [not_or] at hq
      obtain ⟨hsome, -, hret, htook, -⟩ := h.gives s n (by omega) hq.2
      exact .inr ⟨hsome, hret, htook⟩

/-! ## The allocator -/

theorem malloc_other (grants : Grants) {site other : Site} (h : other ≠ site) (size : Nat) :
    (malloc grants site size).2 other = grants other := by
  simp [malloc, h]

theorem malloc_same (grants : Grants) (site : Site) (size : Nat) :
    (malloc grants site size).2 site = fun n => grants site (n + 1) := by
  simp [malloc]

theorem meta_new_null (grants : Grants) :
    httpp_encoding_meta_new grants none none =
      (if (malloc grants .item 32).1 then some { key := none, value := none, value_len := 0 }
        else none,
        (malloc grants .item 32).2) := by
  unfold httpp_encoding_meta_new
  cases hitem : malloc grants .item 32 with
  | mk granted rest => cases granted <;> rfl

/-- `grants'` are the answers after some of `grants`. -/
def Later (grants grants' : Grants) : Prop :=
  ∃ k : Site → Nat, ∀ site n size, grants' site n size = grants site (n + k site) size

theorem Later.refl (grants : Grants) : Later grants grants := ⟨fun _ => 0, fun _ _ _ => rfl⟩

theorem Later.trans {g g' g'' : Grants} (h : Later g g') (h' : Later g' g'') : Later g g'' := by
  obtain ⟨k, hk⟩ := h
  obtain ⟨k', hk'⟩ := h'
  refine ⟨fun site => k' site + k site, fun site n size => ?_⟩
  rw [hk', hk, Nat.add_assoc]

theorem malloc_later (grants : Grants) (site : Site) (size : Nat) :
    Later grants (malloc grants site size).2 := by
  refine ⟨fun s => if s = site then 1 else 0, fun s n size => ?_⟩
  by_cases hs : s = site
  · subst hs
    simp [malloc]
  · simp [malloc, hs]

/-- No allocation fails. -/
def Generous (grants : Grants) : Prop := ∀ site n size, grants site n size

theorem Generous.later {g g' : Grants} (h : Generous g) (hl : Later g g') : Generous g' := by
  obtain ⟨k, hk⟩ := hl
  intro site n size
  rw [hk]
  exact h site _ size

/-! ## Buffers -/

/-- The bytes of a buffer from its offset on. -/
structure Holds (buf : Option Bytes) (offset len : Nat) (left : Bytes) : Prop where
  within : offset ≤ len
  length : (buf.getD []).length = len
  left : (buf.getD []).drop offset = left

namespace Holds

variable {buf : Option Bytes} {offset len : Nat} {u : Bytes}

theorem null : Holds none 0 0 [] := ⟨le_rfl, rfl, rfl⟩

theorem length_eq (h : Holds buf offset len u) : len = offset + u.length := by
  have := h.within
  have := h.length
  rw [← h.left, List.length_drop]
  omega

theorem size_sub_eq (h : Holds buf offset len u) : size_sub len offset = u.length := by
  rw [size_sub_of_le h.within, h.length_eq]
  omega

theorem skip (h : Holds buf offset len u) {k : Nat} (hk : k ≤ u.length) :
    Holds buf (offset + k) len (u.drop k) := by
  refine ⟨?_, h.length, ?_⟩
  · rw [h.length_eq]
    omega
  · rw [← h.left, List.drop_drop]

theorem append (h : Holds buf offset len u) (f : Bytes) :
    Holds (some (buf.getD [] ++ f)) offset (len + f.length) (u ++ f) := by
  refine ⟨Nat.le_add_right_of_le h.within, ?_, ?_⟩
  · simp [h.length]
  · rw [Option.getD_some, List.drop_append_of_le_length (h.length ▸ h.within), h.left]

end Holds

theorem copy_buffer_spec {src : Option Bytes} {boffset blen len : Nat} {u : Bytes} (hlen : 0 < len)
    (h : Holds src boffset blen u) :
    ∃ ret src' boffset' blen',
      copy_buffer src boffset blen len = .ok (ret, u.take len, src', boffset', blen') ∧
      Holds src' boffset' blen' (u.drop len) ∧
      (if ret > 0 then ret else 0) = (u.take len).length ∧
      (ret = -1 ∧ u = [] ∨ ret = (u.take len).length) ∧
      (u.length < len → src' = none) := by
  cases src with
  | none =>
    have hu : u = [] := by simpa using h.left.symm
    subst hu
    refine ⟨-1, none, boffset, blen, ?_, by simpa using h, by simp, .inl ⟨rfl, rfl⟩, fun _ => rfl⟩
    unfold copy_buffer
    rw [if_neg (by omega)]
    simp
  | some block =>
    have hblen := h.length_eq
    have hblock : blen = block.length := h.length.symm
    have hleft : block.drop boffset = u := h.left
    have hmin : (if len < u.length then len else u.length) = (u.take len).length := by
      rw [List.length_take]
      split <;> omega
    have hlen' : (u.take len).length ≤ u.length := by simp
    have htake : (block.drop boffset).take (u.take len).length = u.take len := by
      rw [hleft, List.length_take, List.take_eq_take_iff]
      omega
    have hrun : copy_buffer (some block) boffset blen len =
        if boffset + (u.take len).length = blen then
          .ok (((u.take len).length : Int), u.take len, none, 0, 0)
        else .ok (((u.take len).length : Int), u.take len, some block,
          boffset + (u.take len).length, blen) := by
      unfold copy_buffer
      rw [if_neg (by omega)]
      simp only [h.size_sub_eq, hmin,
        slice_eq (by omega : boffset + (u.take len).length ≤ block.length), ok_bind, htake]
      rfl
    rw [hrun]
    by_cases hall : boffset + (u.take len).length = blen
    · rw [if_pos hall]
      have hd : u.drop len = [] := by
        rw [List.length_take] at hall
        rw [List.drop_eq_nil_iff]
        omega
      exact ⟨_, none, 0, 0, rfl, by rw [hd]; exact Holds.null, by split <;> omega, .inr rfl,
        fun _ => rfl⟩
    · rw [if_neg hall]
      have hsk := h.skip hlen'
      refine ⟨_, some block, _, blen, rfl, ?_, by split <;> omega, .inr rfl, ?_⟩
      · rw [List.length_take] at hall hsk
        rw [List.length_take]
        rwa [show min len u.length = len by omega] at hsk ⊢
      · intro hlt
        rw [List.length_take] at hall
        omega

/-! ## Dispatch -/

theorem process_read_chunked {σ : Type} {self : httpp_encoding_t}
    (h : self.process = .chunked) (len : Nat) (cb : Option (ReadCallback σ)) (userdata : σ) :
    process_read self len cb userdata = enc_chunked_read self len cb userdata := by
  unfold process_read
  rw [h]

end Encoding
