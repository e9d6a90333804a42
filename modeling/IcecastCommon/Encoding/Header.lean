import IcecastCommon.Encoding.Search

/-!
# One chunk header

What `enc_chunked_read_header` does when the raw buffer holds the front of a chunked stream.
-/

namespace Encoding

open Lib

/-! ## The search for the end of the header -/

theorem scan_loop_no_LF (s : Scan) (i : Nat) (l : Bytes) (h : LF ∉ l) :
    (scan_loop s i l).offset_LF = s.offset_LF := by
  induction l generalizing s i with
  | nil => rfl
  | cons c l ih =>
    rw [List.mem_cons, not_or] at h
    unfold scan_loop
    split_ifs with _ _ _ _ hLF
    · rw [ih _ _ h.2]
    · rw [ih _ _ h.2]
    · rw [ih _ _ h.2]
    · rw [ih _ _ h.2]
    · exact absurd hLF.1.symm h.1
    · rw [ih _ _ h.2]

theorem scan_loop_digits {digits : Bytes} (h : ∀ b ∈ digits, isxdigit b) (i : Nat) (rest : Bytes) :
    scan_loop {} i (digits ++ rest) = scan_loop {} (i + digits.length) rest := by
  induction digits generalizing i with
  | nil => rfl
  | cons b digits ih =>
    have hb : isxdigit b := h b (by simp)
    rw [List.cons_append, scan_loop, if_neg (by simp), if_neg (isxdigit_ne hb (by decide)),
      if_neg (fun hc => isxdigit_ne hb (by decide) hc.1), if_neg (isxdigit_ne hb CR_not_digit),
      if_neg (fun hc => isxdigit_ne hb LF_not_digit hc.1),
      ih (fun d hd => h d (List.mem_cons_of_mem b hd))]
    congr 1
    simp
    omega

theorem scan_loop_line {digits : Bytes} (h : ∀ b ∈ digits, isxdigit b) (i : Nat) (rest : Bytes) :
    scan_loop {} i (digits ++ crlf ++ rest) =
      { offset_CR := (i + digits.length : Nat), offset_LF := (i + digits.length + 1 : Nat) } := by
  rw [List.append_assoc, scan_loop_digits h]
  have hCR : scan_loop {} (i + digits.length) (crlf ++ rest) =
      scan_loop { offset_CR := (i + digits.length : Nat) } (i + digits.length + 1) (LF :: rest) :=
      rfl
  rw [hCR, scan_loop, if_neg (by simp), if_neg (by decide),
    if_neg (by simp [show LF ≠ ch ';' by decide]), if_neg (by decide),
    if_pos ⟨rfl, by push_cast; omega⟩]

/-! ## Splitting what was received -/

theorem split_line {c : Chunk} {v rest z : Bytes} (h : v ++ rest = c.digits ++ crlf ++ z) :
    (LF ∉ v ∧ z.length < rest.length) ∨
    ∃ w, v = c.digits ++ crlf ++ w ∧ w ++ rest = z := by
  rcases List.append_eq_append_iff.mp h with ⟨a, ha, hrest⟩ | ⟨w, hv, hz⟩
  · rcases List.eq_nil_or_concat a with rfl | ⟨a', b, rfl⟩
    · exact .inr ⟨[], by simpa using ha.symm, by simpa using hrest⟩
    · left
      rw [List.concat_eq_append, ← List.append_assoc] at ha
      have hlast : c.digits ++ crlf = (c.digits ++ [CR]) ++ [LF] := by simp [crlf]
      rw [hlast] at ha
      obtain ⟨hva, -⟩ := List.append_inj' ha rfl
      refine ⟨?_, by rw [hrest]; simp; omega⟩
      intro hLF
      have hmem : LF ∈ c.digits ++ [CR] := by
        rw [hva]
        exact List.mem_append_left _ hLF
      rw [List.mem_append] at hmem
      rcases hmem with hd | hd
      · exact LF_not_digit (c.hexadecimal _ hd)
      · exact absurd hd (by decide)
  · exact .inr ⟨w, hv, hz.symm⟩

/-! ## The header -/

theorem header_waits {unset : Bytes} {self : httpp_encoding_t} {b u : Bytes}
    (hraw : self.buf_read_raw = some b)
    (h : Holds (some b) self.buf_read_raw_offset self.buf_read_raw_len u) (hLF : LF ∉ u) :
    enc_chunked_read_header unset self = .ok (0, self) := by
  have hline :
      slice b self.buf_read_raw_offset (self.buf_read_raw_len - self.buf_read_raw_offset) =
      .ok u := by
    have hlen : b.length = self.buf_read_raw_len := h.length
    rw [← hlen, slice_rest (hlen ▸ h.within)]
    exact congrArg _ h.left
  unfold enc_chunked_read_header
  simp only [hraw, deref, pure_eq_ok, ok_bind, hline, scan_loop_no_LF _ _ _ hLF, if_true]

theorem raw_window {self : httpp_encoding_t} {b u : Bytes}
    (h : Holds (some b) self.buf_read_raw_offset self.buf_read_raw_len u) :
    slice b self.buf_read_raw_offset (self.buf_read_raw_len - self.buf_read_raw_offset) =
      .ok u := by
  have hlen : b.length = self.buf_read_raw_len := h.length
  rw [← hlen, slice_rest (hlen ▸ h.within)]
  exact congrArg _ h.left

theorem drop_cut {b digits rest : Bytes} {offset : Nat} {x : Byte}
    (h : b.drop offset = digits ++ x :: rest) :
    (b.set (offset + digits.length) 0).drop offset = digits ++ 0 :: rest := by
  rw [List.drop_set, if_neg (by omega), h, Nat.add_sub_cancel_left]
  simp

theorem Chunk.nulFree (c : Chunk) : (0 : Byte) ∉ c.digits :=
  fun h0 => absurd (c.hexadecimal 0 h0) (by decide)

theorem Chunk.scanned (c : Chunk) : sscanf_llx c.digits = some c.body.length := by
  have hsize : hexNat c.digits < 2 ^ 64 := by
    rw [c.size]
    have := c.small
    omega
  rw [sscanf_llx_digits c.digits_ne_nil c.hexadecimal hsize, c.size]

theorem header_line {unset : Bytes} {self : httpp_encoding_t} {b w : Bytes} (c : Chunk)
    (hraw : self.buf_read_raw = some b)
    (h : Holds (some b) self.buf_read_raw_offset self.buf_read_raw_len (c.digits ++ crlf ++ w)) :
    Announces self c.body.length ∧ buffered self = w.length ∧
    ∃ b' offset', Holds (some b') offset' self.buf_read_raw_len w ∧
      enc_chunked_read_header unset self = enc_chunked_read_body
        { self with buf_read_raw := some b', buf_read_raw_offset := offset' } c.body.length := by
  have hlen := h.length_eq
  have hb : b.length = self.buf_read_raw_len := h.length
  have hleft : b.drop self.buf_read_raw_offset = c.digits ++ crlf ++ w := h.left
  have hwindow : window self = c.digits ++ crlf ++ w := by
    rw [window, hraw, Option.getD_some, hleft]
    exact List.take_of_length_le (by omega)
  let at_CR := self.buf_read_raw_offset + c.digits.length
  let b' := b.set at_CR 0
  have hlt : at_CR < b.length := by
    simp [crlf] at hlen
    simp only [at_CR]
    omega
  -- The NUL replaces the CR.
  have hstore : store b ((self.buf_read_raw_offset + c.digits.length : Nat) : Int) 0 = .ok b' :=
    store_eq hlt 0
  have hcut : b'.drop self.buf_read_raw_offset = c.digits ++ 0 :: (LF :: w) :=
    drop_cut (x := CR) (by rw [hleft]; simp [crlf])
  have hrest : b'.drop (at_CR + 2) = w := by
    rw [show at_CR + 2 = self.buf_read_raw_offset +
      (c.digits.length + 2) by simp only [at_CR]; omega, ← List.drop_drop, hcut]
    simp
  refine ⟨⟨?_, b', c.digits, ?_, ?_, c.scanned⟩, ?_, b', at_CR + 2, ⟨?_, ?_, hrest⟩, ?_⟩
  · rw [hwindow, scan_loop_line c.hexadecimal]
    simp only
    omega
  · rw [hwindow, scan_loop_line c.hexadecimal, hraw]
    exact hstore
  · rw [hcut]
    exact cstring_append c.nulFree _
  · simp only [buffered, body_offset, hwindow, scan_loop_line c.hexadecimal]
    simp [crlf] at hlen
    omega
  · simp [crlf] at hlen
    simp only [at_CR]
    omega
  · simpa [b'] using hb
  · unfold enc_chunked_read_header
    simp only [hraw, deref, pure_eq_ok, ok_bind, raw_window h, scan_loop_line c.hexadecimal]
    rw [if_neg (by omega)]
    simp only [if_true, ne_eq, not_true, if_false]
    rw [hstore, ok_bind, hcut, cstring_append c.nulFree, ok_bind, c.scanned]
    rfl

end Encoding
