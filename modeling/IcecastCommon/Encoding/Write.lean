import IcecastCommon.Encoding.Extensions

/-!
# Writing chunks

What one call of `httpp_encoding_write` queues, and what a backend that takes only some of the
bytes, or none, has received after any number of calls.
-/

namespace Encoding

open Lib

/-! ## One chunk -/

/-- The number of bytes that are taken from the buffer. -/
def chunk_size (buf : Option Bytes) (len : Nat) : Nat := if buf = none then 0 else min len 1048576

/-- The bytes that are queued, with the extensions in `line`. -/
def frame (line : Bytes) (buf : Option Bytes) (n : Nat) : Bytes :=
  hex n ++ line ++ crlf ++ (buf.getD []).take n ++ if buf = none then crlf ++ crlf else crlf

theorem frame_ne_nil (line : Bytes) (buf : Option Bytes) (n : Nat) : frame line buf n ≠ [] := by
  simp [frame, crlf]

/-- The text of the extensions, if there is memory for it. -/
def line_of (self : httpp_encoding_t) (ps : List Pair) : Bytes :=
  if self.grants .extensions 0 (extensions_room ps) = true then written ps else []

/-- The metadata that stays behind. -/
def meta_after (self : httpp_encoding_t) (ps : List Pair) : List httpp_meta_t :=
  if self.grants .extensions 0 (extensions_room ps) = true then [] else self.meta_write

theorem bytes_at_spec {buf : Option Bytes} {len : Nat}
    (hbuf : ∀ block, buf = some block → len ≤ block.length) :
    bytes_at buf (chunk_size buf len) = .ok ((buf.getD []).take (chunk_size buf len)) := by
  unfold bytes_at chunk_size
  cases buf with
  | none => rfl
  | some block =>
    have hle := hbuf block rfl
    simp only [reduceCtorEq, if_false]
    exact slice_front (by omega)

/-- What becomes of the metadata: `line` is put behind the size of a chunk, and the items in `after`
stay behind. -/
def Extends (self : httpp_encoding_t) (line : Bytes) (after : List httpp_meta_t) : Prop :=
  ∃ block grants, enc_chunked_write_extensions self =
      .ok (block, { self with meta_write := after, grants := grants }) ∧
    Later self.grants grants ∧ grants .write_encoded = self.grants .write_encoded ∧
    (block = none ∧ line = [] ∨ ∃ b, block = some b ∧ cstring b = .ok line)

theorem extensions_line {self : httpp_encoding_t} {ps : List Pair}
    (hmeta : List.Forall₂ Stands self.meta_write ps) :
    Extends self (line_of self ps) (meta_after self ps) := by
  by_cases hnil : self.meta_write = []
  · rw [hnil, List.forall₂_nil_left_iff] at hmeta
    subst hmeta
    have hmeta : meta_after self [] = self.meta_write := by simp [meta_after, hnil]
    refine ⟨none, self.grants, ?_, Later.refl _, rfl, ?_⟩
    · unfold enc_chunked_write_extensions
      rw [if_pos hnil, hmeta]
      rfl
    · exact .inl ⟨rfl, by simp [line_of, written, extensions]⟩
  · have hrun := enc_chunked_write_extensions_spec hnil hmeta
    by_cases hgrant : self.grants .extensions 0 (extensions_room ps) = true
    · rw [if_pos hgrant] at hrun
      refine ⟨some (extensions ps ++ [0]), (malloc self.grants .extensions (extensions_room ps)).2,
        ?_, malloc_later _ _ _,
        malloc_other self.grants (show Site.write_encoded ≠ .extensions by decide) _, ?_⟩
      · rw [hrun, meta_after, if_pos hgrant]
      · exact .inr ⟨_, rfl, by rw [cstring_cut, line_of, if_pos hgrant, written]⟩
    · rw [if_neg hgrant] at hrun
      refine ⟨none, (malloc self.grants .extensions (extensions_room ps)).2, ?_, malloc_later _ _ _,
        malloc_other self.grants (show Site.write_encoded ≠ .extensions by decide) _, ?_⟩
      · rw [hrun, meta_after, if_neg hgrant]
      · exact .inl ⟨rfl, if_neg hgrant⟩

/-- The encoder queues a frame, unless it refuses. -/
theorem enc_chunked_write_spec {self : httpp_encoding_t} {line : Bytes} {after : List httpp_meta_t}
    {buf : Option Bytes} {len : Nat} (hidle : ¬ httpp_encoding_pending self > 0)
    (hextends : Extends self line after) (hbuf : ∀ block, buf = some block → len ≤ block.length) :
    ∃ grants, Later self.grants grants ∧
      (∀ n size, grants .write_encoded n size = self.grants .write_encoded (n + 1) size) ∧
      enc_chunked_write self buf len =
        let queued := frame line buf (chunk_size buf len)
        if self.grants .write_encoded 0 queued.length = true then
          .ok (chunk_size buf len,
            { self with meta_write := after, grants := grants, buf_write_encoded := some queued
                        buf_write_encoded_offset := 0, buf_write_encoded_len := queued.length })
        else .ok (-1,
          { self with meta_write := after, grants := grants, buf_write_encoded := none }) := by
  obtain ⟨block, grants, hext, hlater, hsite, hline⟩ := hextends
  have hsize :
    (if (if buf = none then 0 else len) > 1048576 then 1048576 else if buf = none then 0 else len) =
      chunk_size buf len := by
    unfold chunk_size
    split_ifs <;> omega
  have hbody_len : ((buf.getD []).take (chunk_size buf len)).length = chunk_size buf len := by
    cases buf with
    | none => rfl
    | some block =>
      have hle := hbuf block rfl
      simp [chunk_size]
      omega
  have htotal : (hex (chunk_size buf len)).length + line.length + 2 + chunk_size buf len + 2 +
      (if buf = none then 2 else 0) = (frame line buf (chunk_size buf len)).length := by
    unfold frame
    rw [List.length_append, List.length_append, hbody_len]
    split_ifs <;> simp only [List.length_append, crlf, List.length_cons, List.length_nil]
  refine ⟨(malloc grants .write_encoded (frame line buf (chunk_size buf len)).length).2,
    hlater.trans (malloc_later _ _ _), ?_, ?_⟩
  · intro n size
    rw [malloc_same, hsite]
  · have hsite0 : (malloc grants .write_encoded (frame line buf (chunk_size buf len)).length).1 =
        self.grants .write_encoded 0 (frame line buf (chunk_size buf len)).length := by
      rw [← hsite]
      rfl
    have hbody := bytes_at_spec hbuf
    rcases hline with ⟨rfl, rfl⟩ | ⟨b, rfl, hline⟩
    · unfold enc_chunked_write
      simp only [if_neg hidle, hsize, hext, ok_bind, pure_eq_ok, htotal, hsite0, hbody]
      rw [ite_not]
      rfl
    · unfold enc_chunked_write
      simp only [if_neg hidle, hsize, hext, ok_bind, pure_eq_ok, hline, htotal, hsite0, hbody]
      rw [ite_not]
      rfl

/-! ## Flushing -/

variable {σ : Type} {cb : WriteCallback σ}

/-- A backend does not take more than it was offered. -/
def Takes (cb : WriteCallback σ) : Prop := ∀ s data, (cb s data).1.toNat ≤ data.length

/-- What a flush leaves of `u`, and the backend after it. -/
def flushed (cb : WriteCallback σ) (s : σ) (u : Bytes) : Bytes × σ :=
  if u = [] then ([], s) else (u.drop (cb s u).1.toNat, (cb s u).2)

/-- The encoded bytes that are still to be sent are `u`. -/
structure Unsent (enc : httpp_encoding_t) (u : Bytes) : Prop where
  holds : Holds enc.buf_write_encoded enc.buf_write_encoded_offset enc.buf_write_encoded_len u
  null : u = [] → enc.buf_write_encoded = none
  small : u.length < 2 ^ 63

theorem Unsent.pending {self : httpp_encoding_t} {u : Bytes} (h : Unsent self u) :
    httpp_encoding_pending self = u.length := by
  unfold httpp_encoding_pending
  split_ifs with hnull
  · have hu := h.holds.left
    rw [hnull] at hu
    simp [← hu]
  · rw [h.holds.size_sub_eq, ssize_of_lt h.small]

theorem Unsent.idle {self : httpp_encoding_t} (h : Unsent self []) :
    ¬ httpp_encoding_pending self > 0 := by
  rw [h.pending]
  simp

/-- All but the buffer of encoded bytes is unchanged. -/
def SameButSent (self self' : httpp_encoding_t) : Prop :=
  self' = { self with buf_write_encoded := self'.buf_write_encoded
                      buf_write_encoded_offset := self'.buf_write_encoded_offset
                      buf_write_encoded_len := self'.buf_write_encoded_len }

theorem SameButSent.extensions {self self' : httpp_encoding_t} (h : SameButSent self self')
    {block : Option Bytes} {after : List httpp_meta_t} {grants : Grants}
    (hrun : enc_chunked_write_extensions self =
      .ok (block, { self with meta_write := after, grants := grants })) :
    enc_chunked_write_extensions self' =
      .ok (block, { self' with meta_write := after, grants := grants }) := by
  obtain ⟨b, offset, len, rfl⟩ : ∃ b offset len, self' = { self with
      buf_write_encoded := b, buf_write_encoded_offset := offset,
      buf_write_encoded_len := len } := ⟨_, _, _, h⟩
  cases self
  unfold enc_chunked_write_extensions at hrun ⊢
  rcases ite_eq_iff.mp hrun with ⟨hnil, hrun⟩ | ⟨hsome, hrun⟩
  · rw [if_pos hnil]
    cases hrun
    rfl
  rw [if_neg hsome]
  obtain ⟨rooms, hrooms, hrun⟩ := bind_eq_ok.mp hrun
  refine run_bind hrooms ?_
  rcases ite_eq_iff.mp hrun with ⟨hrefused, hrun⟩ | ⟨hgrant, hrun⟩
  · refine (if_pos hrefused).trans ?_
    cases hrun
    rfl
  refine (if_neg hgrant).trans ?_
  obtain ⟨texts, htexts, hrun⟩ := bind_eq_ok.mp hrun
  refine run_bind htexts ?_
  rcases ite_eq_iff.mp hrun with ⟨-, hrun⟩ | ⟨hroom, hrun⟩
  · exact absurd hrun (by simp [bind, Except.bind])
  refine (if_neg hroom).trans ?_
  cases hrun
  rfl

theorem SameButSent.extends {self self' : httpp_encoding_t} (h : SameButSent self self')
    {line : Bytes} {after : List httpp_meta_t} (hextends : Extends self line after) :
    Extends self' line after := by
  obtain ⟨block, grants, hrun, hlater, hsite, hline⟩ := hextends
  have hgrants : self'.grants = self.grants := by rw [h]
  exact ⟨block, grants, h.extensions hrun, hgrants ▸ hlater, hgrants ▸ hsite, hline⟩

theorem flush_spec (htakes : Takes cb) {self : httpp_encoding_t} {u : Bytes}
    (h : Unsent self u) (s : σ) :
    ∃ self', flush_output self cb s = .ok (self', (flushed cb s u).2) ∧
      Unsent self' (flushed cb s u).1 ∧
      SameButSent self self' := by
  have hlen := h.holds.length_eq
  unfold flushed
  cases hbuf : self.buf_write_encoded with
  | none =>
    have hu : u = [] := by
      have hu := h.holds.left
      rw [hbuf] at hu
      simpa using hu.symm
    subst hu
    refine ⟨self, ?_, h, rfl⟩
    unfold flush_output
    rw [hbuf]
    rfl
  | some block =>
    have hne : u ≠ [] := fun hu => absurd (h.null hu) (by simp [hbuf])
    have hwithin := htakes s u
    have hblock : block.length = self.buf_write_encoded_len := by simpa [hbuf] using h.holds.length
    have hleft : block.drop self.buf_write_encoded_offset = u := by simpa [hbuf] using h.holds.left
    have hslice : slice block self.buf_write_encoded_offset u.length = .ok u := by
      rw [slice_eq (by omega), hleft, List.take_length]
    rw [if_neg hne]
    unfold flush_output
    simp only [hbuf, h.holds.size_sub_eq, hslice, ok_bind, pure_eq_ok]
    by_cases hret : (cb s u).1 > 0
    · by_cases hall : self.buf_write_encoded_offset + (cb s u).1.toNat = self.buf_write_encoded_len
      · have hdrop : u.drop (cb s u).1.toNat = [] := List.drop_eq_nil_of_le (by omega)
        simp only [if_pos hret, if_pos hall, hdrop]
        exact ⟨_, rfl, ⟨Holds.null, fun _ => rfl, by simp⟩, rfl⟩
      · simp only [if_pos hret, if_neg hall]
        refine ⟨_, rfl, ⟨?_, ?_, ?_⟩, rfl⟩
        · have hskip := h.holds.skip hwithin
          rw [hbuf] at hskip
          simpa [hbuf] using hskip
        · intro hdrop
          rw [List.drop_eq_nil_iff] at hdrop
          omega
        · have := h.small
          rw [List.length_drop]
          omega
    · have hzero : (cb s u).1.toNat = 0 := by omega
      simp only [if_neg hret, hzero, List.drop_zero]
      exact ⟨self, rfl, h, rfl⟩

/-! ## One call -/

theorem process_write_chunked {self self' : httpp_encoding_t} {buf : Option Bytes}
    {len : Nat} {ret : Int} (hproc : self.process = .chunked)
    (hrun : enc_chunked_write self buf len = .ok (ret, self')) (s : σ) :
    process_write self buf len cb s = .ok (ret, self', s) := by
  unfold process_write
  rw [hproc]
  show (enc_chunked_write self buf len >>= _) = _
  rw [hrun]
  rfl

theorem write_refuses (htakes : Takes cb) {self : httpp_encoding_t} {u : Bytes}
    (hproc : self.process = .chunked) (h : Unsent self u) (s : σ) (buf : Option Bytes) (len : Nat)
    (hbusy : (flushed cb s u).1 ≠ []) :
    ∃ self', httpp_encoding_write self buf len (some cb) s =
        .ok (0, self', (flushed cb (flushed cb s u).2 (flushed cb s u).1).2) ∧
      Unsent self' (flushed cb (flushed cb s u).2 (flushed cb s u).1).1 ∧
      SameButSent self self' := by
  obtain ⟨self1, hflush1, hunsent1, hsame1⟩ := flush_spec htakes h s
  obtain ⟨self2, hflush2, hunsent2, hsame2⟩ := flush_spec htakes hunsent1 (flushed cb s u).2
  have hproc1 : self1.process = .chunked := by rw [hsame1]; exact hproc
  have hpending : httpp_encoding_pending self1 > 0 := by
    have := List.length_pos_iff.mpr hbusy
    rw [hunsent1.pending]
    omega
  have hrefuse : enc_chunked_write self1 buf len = .ok (0, self1) := if_pos hpending
  refine ⟨self2, ?_, hunsent2, ?_⟩
  · unfold httpp_encoding_write
    simp only [hflush1, ok_bind, process_write_chunked hproc1 hrefuse, hflush2, pure_eq_ok]
  · unfold SameButSent
    rw [hsame2, hsame1]

section Idle

variable {self : httpp_encoding_t} {u line : Bytes} {after : List httpp_meta_t}
  {buf : Option Bytes} {len : Nat}

theorem write_idle (htakes : Takes cb) (h : Unsent self u) (s : σ)
    (hextends : Extends self line after) (hbuf : ∀ block, buf = some block → len ≤ block.length)
    (hfree : (flushed cb s u).1 = []) :
    ∃ self1 grants, flush_output self cb s = .ok (self1, (flushed cb s u).2) ∧ Unsent self1 [] ∧
      self1.process = self.process ∧ Later self.grants grants ∧
      (∀ n size, grants .write_encoded n size = self.grants .write_encoded (n + 1) size) ∧
      enc_chunked_write self1 buf len =
        let queued := frame line buf (chunk_size buf len)
        if self.grants .write_encoded 0 queued.length = true then
          .ok (chunk_size buf len,
            { self1 with meta_write := after, grants := grants, buf_write_encoded := some queued
                         buf_write_encoded_offset := 0, buf_write_encoded_len := queued.length })
        else .ok (-1,
          { self1 with meta_write := after, grants := grants, buf_write_encoded := none }) := by
  obtain ⟨self1, hflush, hunsent, hsame⟩ := flush_spec htakes h s
  rw [hfree] at hunsent
  have hgrants1 : self1.grants = self.grants := by rw [hsame]
  obtain ⟨grants, hlater, hnext, hrun⟩ :=
    enc_chunked_write_spec hunsent.idle (hsame.extends hextends) hbuf
  rw [hgrants1] at hrun
  rw [hgrants1] at hlater hnext
  exact ⟨self1, grants, hflush, hunsent, by rw [hsame], hlater, hnext, hrun⟩

theorem write_queues (htakes : Takes cb) (hproc : self.process = .chunked)
    (h : Unsent self u) (s : σ) (hextends : Extends self line after)
    (hbuf : ∀ block, buf = some block → len ≤ block.length)
    (hsmall : (frame line buf (chunk_size buf len)).length < 2 ^ 63)
    (hfree : (flushed cb s u).1 = [])
    (hgrant : self.grants .write_encoded 0 (frame line buf (chunk_size buf len)).length = true) :
    ∃ self', httpp_encoding_write self buf len (some cb) s =
        .ok (chunk_size buf len, self',
          (flushed cb (flushed cb s u).2 (frame line buf (chunk_size buf len))).2) ∧
      Unsent self' (flushed cb (flushed cb s u).2 (frame line buf (chunk_size buf len))).1 ∧
      self'.process = .chunked ∧ self'.meta_write = after ∧ Later self.grants self'.grants ∧
      ∀ n size, self'.grants .write_encoded n size = self.grants .write_encoded (n + 1) size := by
  obtain ⟨self1, grants, hflush1, -, hproc1, hlater, hnext, hrun⟩ :=
    write_idle htakes h s hextends hbuf hfree
  simp only [if_pos hgrant] at hrun
  have hqueued := frame_ne_nil line buf (chunk_size buf len)
  generalize frame line buf (chunk_size buf len) = queued at *
  have hunsent : Unsent
      { self1 with meta_write := after, grants := grants, buf_write_encoded := some queued
                   buf_write_encoded_offset := 0, buf_write_encoded_len := queued.length } queued :=
    ⟨⟨Nat.zero_le _, rfl, rfl⟩, fun hnil => absurd hnil hqueued, hsmall⟩
  obtain ⟨self2, hflush2, hunsent2, hsame2⟩ := flush_spec htakes hunsent (flushed cb s u).2
  refine ⟨self2, ?_, hunsent2, ?_, ?_, ?_, ?_⟩
  · unfold httpp_encoding_write
    simp only [hflush1, ok_bind, process_write_chunked (hproc1.trans hproc) hrun,
      hflush2, pure_eq_ok]
  · rw [hsame2]
    exact hproc1.trans hproc
  · rw [hsame2]
  · rw [hsame2]
    exact hlater
  · rw [hsame2]
    exact hnext

theorem write_fails (htakes : Takes cb) (hproc : self.process = .chunked)
    (h : Unsent self u) (s : σ) (hextends : Extends self line after)
    (hbuf : ∀ block, buf = some block → len ≤ block.length) (hfree : (flushed cb s u).1 = [])
    (hrefused : ¬ self.grants .write_encoded 0 (frame line buf (chunk_size buf len)).length =
      true) :
    ∃ self', httpp_encoding_write self buf len (some cb) s = .ok (-1, self', (flushed cb s u).2) ∧
      Unsent self' [] ∧ self'.process = .chunked ∧ self'.meta_write = after ∧
      Later self.grants self'.grants ∧
      ∀ n size, self'.grants .write_encoded n size = self.grants .write_encoded (n + 1) size := by
  obtain ⟨self1, grants, hflush1, hunsent1, hproc1, hlater, hnext, hrun⟩ :=
    write_idle htakes h s hextends hbuf hfree
  simp only [if_neg hrefused] at hrun
  have hflush2 (x : httpp_encoding_t) (hx : x.buf_write_encoded = none) :
      flush_output x cb (flushed cb s u).2 = .ok (x, (flushed cb s u).2) := by
    unfold flush_output
    rw [hx]
    rfl
  refine ⟨{ self1 with meta_write := after, grants := grants, buf_write_encoded := none }, ?_, ?_,
    hproc1.trans hproc, rfl, hlater, hnext⟩
  · unfold httpp_encoding_write
    simp only [hflush1, ok_bind, process_write_chunked (hproc1.trans hproc) hrun, pure_eq_ok]
    rw [hflush2 _ rfl, ok_bind]
  · have hholds := hunsent1.holds
    rw [hunsent1.null rfl] at hholds
    exact ⟨hholds, fun _ => rfl, by simp⟩

end Idle

end Encoding
