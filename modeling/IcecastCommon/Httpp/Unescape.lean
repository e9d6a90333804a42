import IcecastCommon.Httpp.Query
import IcecastCommon.Lib.Hex

/-!
# URL decoding

`url_unescape` with the block it writes to. It undoes every way to write a string, what it refuses
can be told from the text, and `%00` is the only way for a NUL to come into the middle of what it
returns.
-/

namespace Httpp

open Lib

/-! ## One unit -/

theorem unescape_plus (rest : Bytes) :
    unescape (ch '+' :: rest) = (unescape rest).map (ch ' ' :: ·) := by
  have hpercent : ch '+' ≠ ch '%' := by decide
  rw [unescape.eq_def]
  simp only [hpercent, if_false, if_true]

theorem unescape_hash (rest : Bytes) : unescape (ch '#' :: rest) = some [] := by
  have hpercent : ch '#' ≠ ch '%' := by decide
  have hplus : ch '#' ≠ ch '+' := by decide
  rw [unescape.eq_def]
  simp only [hpercent, hplus, if_false, if_true]

theorem unescape_nul (rest : Bytes) : unescape (0 :: rest) = none := by
  have hpercent : (0 : Byte) ≠ ch '%' := by decide
  have hplus : (0 : Byte) ≠ ch '+' := by decide
  have hhash : (0 : Byte) ≠ ch '#' := by decide
  rw [unescape.eq_def]
  simp only [hpercent, hplus, hhash, if_false, if_true]

/-- A byte that stands for itself. -/
def Literal (c : Byte) : Prop := c ≠ ch '%' ∧ c ≠ ch '+' ∧ c ≠ ch '#' ∧ c ≠ 0

theorem unescape_literal {c : Byte} (h : Literal c) (rest : Bytes) :
    unescape (c :: rest) = (unescape rest).map (c :: ·) := by
  obtain ⟨hpercent, hplus, hhash, hnul⟩ := h
  rw [unescape.eq_def]
  simp only [hpercent, hplus, hhash, hnul, if_false]

theorem unescape_short {rest : Bytes} (h : rest.length < 2) : unescape (ch '%' :: rest) = none := by
  match rest with
  | [] => rfl
  | [_] => rfl
  | _ :: _ :: rest =>
    simp only [List.length_cons] at h
    omega

theorem unescape_escape (hi lo : Byte) (rest : Bytes) :
    unescape (ch '%' :: hi :: lo :: rest) =
      if hex hi = -1 ∨ hex lo = -1 then none
      else (unescape rest).map (UInt8.ofNat (hex hi * 16 + hex lo).toNat :: ·) := by
  rw [unescape, if_pos rfl]

theorem front_cases (c : Byte) : c = ch '%' ∨ c = ch '+' ∨ c = ch '#' ∨ c = 0 ∨ Literal c := by
  unfold Literal
  tauto

/-- Induction over the units of a text. -/
@[elab_as_elim]
theorem unit_induction {P : Bytes → Prop} (nil : P [])
    (short : ∀ rest, rest.length < 2 → P (ch '%' :: rest))
    (escape : ∀ hi lo rest, P rest → P (ch '%' :: hi :: lo :: rest))
    (plus : ∀ rest, P rest → P (ch '+' :: rest)) (hash : ∀ rest, P (ch '#' :: rest))
    (nul : ∀ rest, P (0 :: rest)) (literal : ∀ c rest, Literal c → P rest → P (c :: rest))
    (text : Bytes) : P text := by
  induction hlen : text.length using Nat.strong_induction_on generalizing text with
  | _ len ih =>
    cases text with
    | nil => exact nil
    | cons c rest =>
      rw [List.length_cons] at hlen
      have hrest : P rest := ih _ (by omega) rest rfl
      rcases front_cases c with rfl | rfl | rfl | rfl | hc
      · match rest with
        | [] => exact short [] (by decide)
        | [b] => exact short [b] (Nat.one_lt_two)
        | hi :: lo :: rest =>
          rw [List.length_cons, List.length_cons] at hlen
          exact escape hi lo rest (ih _ (by omega) rest rfl)
      · exact plus rest hrest
      · exact hash rest
      · exact nul rest
      · exact literal c rest hc hrest

/-! ## The block -/

/-- The loop with the block from `calloc`: whether the text can be decoded, the block and `dst`. -/
def decoded_loop (block : Bytes) (src len : Nat) : Nat → Nat → Bytes → Nat → C (Bool × Bytes × Nat)
  | 0, _, decoded, dst => return (true, decoded, dst)
  | fuel + 1, i, decoded, dst => do
    if i < len then
      let c ← read block (src + i)
      if c = ch '%' then
        if i + 2 ≥ len then return (false, decoded, dst)
        let hi := hex (← read block (src + (i + 1)))
        let lo := hex (← read block (src + (i + 2)))
        if hi = -1 ∨ lo = -1 then return (false, decoded, dst)
        let decoded ← store decoded dst (UInt8.ofNat (hi * 16 + lo).toNat)
        decoded_loop block src len fuel (i + 3) decoded (dst + 1)
      else if c = ch '+' then
        decoded_loop block src len fuel (i + 1) (← store decoded dst (ch ' ')) (dst + 1)
      else if c = ch '#' then return (true, decoded, dst)
      else if c = 0 then return (false, decoded, dst)
      else decoded_loop block src len fuel (i + 1) (← store decoded dst c) (dst + 1)
    else return (true, decoded, dst)

/-- What `url_unescape` returns, with the number of bytes that it stored. -/
def url_unescape_block (block : Bytes) (src len : Nat) : C (Option Bytes × Nat) := do
  let (done, decoded, dst) ← decoded_loop block src len len 0 (List.replicate (len + 1) 0) 0
  if !done then return (none, dst)
  return (some (← store decoded dst 0), dst + 1)

/-- The bytes stored so far, in a block of `size` zeros. -/
def padded (size : Nat) (dst : Bytes) : Bytes := dst ++ List.replicate (size - dst.length) 0

theorem store_padded {size : Nat} {dst : Bytes} (h : dst.length < size) (b : Byte) :
    store (padded size dst) dst.length b = .ok (padded size (dst ++ [b])) := by
  have hsize : size - dst.length = size - (dst ++ [b]).length + 1 := by
    rw [List.length_append, List.length_singleton]
    omega
  unfold padded
  rw [hsize, List.replicate_succ, store_middle]
  simp

/-- `dst` stands for `text`, which may have been left early. -/
def Decoded (text : Bytes) (size : Nat) (dst : Bytes) (result : C (Bool × Bytes × Nat)) : Prop :=
  ∃ new, result = .ok ((unescape text).isSome, padded size (dst ++ new), (dst ++ new).length) ∧
    new.length ≤ text.length ∧ ∀ v, unescape text = some v → new = v

theorem Decoded.stop {text : Bytes} (size : Nat) (dst : Bytes) (h : unescape text = some []) :
    Decoded text size dst (.ok (true, padded size dst, dst.length)) := by
  refine ⟨[], ?_, Nat.zero_le _, fun v hv => Option.some.inj (h.symm.trans hv)⟩
  rw [List.append_nil, h]
  rfl

theorem Decoded.refuse {text : Bytes} (size : Nat) (dst : Bytes) (h : unescape text = none) :
    Decoded text size dst (.ok (false, padded size dst, dst.length)) := by
  refine ⟨[], ?_, Nat.zero_le _, fun v hv => by rw [h] at hv; cases hv⟩
  rw [List.append_nil, h]
  rfl

theorem Decoded.cons {text rest dst : Bytes} {b : Byte} {size : Nat}
    {result : C (Bool × Bytes × Nat)} (h : Decoded rest size (dst ++ [b]) result)
    (htext : unescape text = (unescape rest).map (b :: ·)) (hlen : rest.length < text.length) :
    Decoded text size dst result := by
  obtain ⟨new, hrun, hnew, hv⟩ := h
  refine ⟨b :: new, ?_, ?_, ?_⟩
  · rw [hrun, htext, List.append_assoc, Option.isSome_map]
    rfl
  · rw [List.length_cons]
    omega
  · intro v hdecoded
    rw [htext] at hdecoded
    obtain ⟨w, hw, rfl⟩ := Option.map_eq_some_iff.mp hdecoded
    rw [hv w hw]

/-- A round stores the byte of the unit at the front, and goes on behind the unit. -/
theorem Decoded.store {text u dst : Bytes} {b : Byte} {size : Nat}
    {k : Bytes → Nat → C (Bool × Bytes × Nat)} (hroom : dst.length < size)
    (hunit : u ≠ []) (htext : unescape (u ++ text) = (unescape text).map (b :: ·))
    (h : Decoded text size (dst ++ [b])
      (k (padded size (dst ++ [b])) (dst ++ [b]).length)) :
    Decoded (u ++ text) size dst (do
      k (← Lib.store (padded size dst) dst.length b) (dst.length + 1)) := by
  rw [store_padded hroom, ok_bind]
  rw [List.length_append, List.length_singleton] at h
  have hpos := List.length_pos_iff.mpr hunit
  exact h.cons htext (by rw [List.length_append]; omega)

theorem two_more {text : Bytes} (h : ¬ text.length < 2) :
    ∃ hi lo rest, text = hi :: lo :: rest := by
  match text with
  | [] => simp at h
  | [_] => simp at h
  | hi :: lo :: rest => exact ⟨hi, lo, rest, rfl⟩

theorem decoded_loop_spec {block rest : Bytes} {src len i size : Nat}
    {text dst : Bytes} {fuel : Nat} (h : block.drop (src + i) = text ++ rest)
    (hlen : i + text.length = len) (hfuel : text.length ≤ fuel)
    (hroom : dst.length + text.length < size) :
    Decoded text size dst (decoded_loop block src len fuel i (padded size dst) dst.length) := by
  induction fuel generalizing text i dst with
  | zero =>
    obtain rfl : text = [] := List.length_eq_zero_iff.mp (by omega)
    exact .stop size dst rfl
  | succ fuel ih =>
    unfold decoded_loop
    cases text with
    | nil =>
      rw [List.length_nil] at hlen
      rw [if_neg (by omega)]
      exact .stop size dst rfl
    | cons c text =>
      rw [List.length_cons] at hlen hfuel hroom
      have hread : read block (src + i) = .ok c := read_drop h
      have hnext : block.drop (src + (i + 1)) = text ++ rest := drop_next h
      have hlength (b : Byte) : (dst ++ [b]).length = dst.length + 1 := List.length_append
      rw [if_pos (by omega), hread, ok_bind]
      -- the round of a unit of one byte
      have hone (b : Byte) (hb : unescape ([c] ++ text) = (unescape text).map (b :: ·)) :=
        Decoded.store (k := decoded_loop block src len fuel (i + 1))
          (show dst.length < size by omega) (List.cons_ne_nil c []) hb
          (ih hnext (by omega) (by omega) (by rw [hlength]; omega))
      rcases front_cases c with rfl | rfl | rfl | rfl | hc
      · rw [if_pos rfl]
        by_cases hshort : text.length < 2
        · rw [if_pos (by omega)]
          exact .refuse size dst (unescape_short hshort)
        · obtain ⟨hi, lo, text, rfl⟩ := two_more hshort
          simp only [List.length_cons] at hlen hfuel hroom
          have hnext2 : block.drop (src + (i + 2)) = lo :: text ++ rest := drop_next hnext
          have hnext3 : block.drop (src + (i + 3)) = text ++ rest := drop_next hnext2
          rw [if_neg (by omega), read_drop hnext, ok_bind, read_drop hnext2, ok_bind]
          dsimp only
          split_ifs with hdigits
          · exact .refuse size dst (by rw [unescape_escape, if_pos hdigits])
          · refine Decoded.store (u := [ch '%', hi, lo])
              (k := decoded_loop block src len fuel (i + 3)) (show dst.length < size by omega)
              (by simp) ?_ (ih hnext3 (by omega) (by omega) (by rw [hlength]; omega))
            exact (unescape_escape hi lo text).trans (if_neg hdigits)
      · rw [if_neg (by decide), if_pos rfl]
        exact hone _ (unescape_plus text)
      · rw [if_neg (by decide), if_neg (by decide), if_pos rfl]
        exact .stop size dst (unescape_hash text)
      · rw [if_neg (by decide), if_neg (by decide), if_neg (by decide), if_pos rfl]
        exact .refuse size dst (unescape_nul text)
      · rw [if_neg hc.1, if_neg hc.2.1, if_neg hc.2.2.1, if_neg hc.2.2.2]
        exact hone c (unescape_literal hc text)

/-- The block has room for all that is stored. -/
theorem url_unescape_block_spec (pre text rest : Bytes) :
    ∃ ret stored, url_unescape_block (pre ++ (text ++ rest)) pre.length text.length =
      .ok (ret, stored) ∧
      stored ≤ text.length + 1 ∧
      ret = (unescape text).map (padded (text.length + 1) ·) ∧ ∀ v, unescape text = some v →
      stored = v.length + 1 := by
  have hdrop : (pre ++ (text ++ rest)).drop (pre.length + 0) = text ++ rest := List.drop_left
  have hroom : ([] : Bytes).length + text.length < text.length + 1 := by simp
  obtain ⟨new, hrun, hnew, hv⟩ := decoded_loop_spec hdrop (Nat.zero_add _) (Nat.le_refl _) hroom
  rw [List.nil_append] at hrun
  have hzeros : padded (text.length + 1) [] = List.replicate (text.length + 1) 0 := by simp [padded]
  rw [hzeros, List.length_nil] at hrun
  unfold url_unescape_block
  rw [hrun, ok_bind]
  cases hdecoded : unescape text with
  | none => exact ⟨none, new.length, rfl, by omega, rfl, fun v hv => by cases hv⟩
  | some v =>
    obtain rfl := hv v hdecoded
    have hlast :
        store (padded (text.length + 1) new) new.length 0 = .ok (padded (text.length + 1) new) := by
      rw [store_padded (by omega)]
      unfold padded
      rw [List.append_assoc, ← List.replicate_one, List.replicate_append_replicate,
        List.length_append, List.length_replicate]
      congr 3
      omega
    refine ⟨some (padded (text.length + 1) new), new.length + 1, ?_, by omega, rfl, ?_⟩
    · simp only [Option.isSome_some, Bool.not_true, Bool.false_eq_true, if_false]
      rw [hlast]
      rfl
    · intro v hv
      rw [← Option.some.inj hv]

theorem string_padded {size : Nat} {v : Bytes} (h : v.length < size) :
    string_at (padded size v) 0 = .ok (CString.cut v) := by
  have hzeros :
      List.replicate (size - v.length) (0 : Byte) =
      0 :: List.replicate (size - v.length - 1) 0 := by
    rw [← List.replicate_succ]
    congr 1
    omega
  unfold padded
  rw [hzeros]
  exact string_at_nul v _

/-- The block that is written byte by byte starts with the string that `url_unescape` makes, or
there is neither. -/
theorem url_unescape_same (pre text rest : Bytes) : ∃ ret stored value,
    url_unescape_block (pre ++ (text ++ rest)) pre.length text.length = .ok (ret, stored) ∧
      url_unescape (pre ++ (text ++ rest)) pre.length text.length = .ok value ∧
      ret.map (string_at · 0) = value.map (string_at · 0) := by
  obtain ⟨ret, stored, hrun, hle, rfl, hstored⟩ := url_unescape_block_spec pre text rest
  refine ⟨_, stored, _, hrun, url_unescape_spec List.drop_left, ?_⟩
  rw [Option.map_map, Option.map_map]
  apply Option.map_congr
  intro v hv
  have hlen := hstored v hv
  rw [Function.comp_apply, Function.comp_apply, string_padded (by omega), string_at_cut]

/-! ## Units -/

/-- The text in units of one byte or of `%` and two bytes, up to the first unit that is `#`. -/
def units : Bytes → List Bytes
  | [] => []
  | c :: rest =>
    if c = ch '#' then []
    else if c = ch '%' then
      match rest with
      | hi :: lo :: rest => [c, hi, lo] :: units rest
      | _ => [c :: rest]
    else [c] :: units rest

/-- A NUL, or a `%` without two hexadecimal digits behind it. -/
def Refused (u : Bytes) : Prop :=
  u = [0] ∨ ∃ behind, u = ch '%' :: behind ∧ ¬ ∃ hi lo, behind = [hi, lo] ∧
    isxdigit hi ∧ isxdigit lo

theorem units_byte {c : Byte} (hhash : c ≠ ch '#') (hpercent : c ≠ ch '%') (rest : Bytes) :
    units (c :: rest) = [c] :: units rest := by
  rw [units.eq_def]
  simp only [hhash, hpercent, if_false]

theorem units_hash (rest : Bytes) : units (ch '#' :: rest) = [] := by
  rw [units.eq_def]
  simp only [if_true]

theorem units_escape (hi lo : Byte) (rest : Bytes) :
    units (ch '%' :: hi :: lo :: rest) = [ch '%', hi, lo] :: units rest := by
  have hhash : ch '%' ≠ ch '#' := by decide
  rw [units, if_neg hhash, if_pos rfl]

theorem units_short {rest : Bytes} (h : rest.length < 2) :
    units (ch '%' :: rest) = [ch '%' :: rest] := by
  match rest with
  | [] => rfl
  | [_] => rfl
  | _ :: _ :: rest =>
    simp only [List.length_cons] at h
    omega

theorem hex_val : ∀ c, hex c = match hexVal c with | some n => (n : Int) | none => -1 :=
  forall_byte (by decide +kernel)

theorem hex_isxdigit (c : Byte) : hex c = -1 ↔ ¬ isxdigit c := by
  rw [hex_val, isxdigit]
  cases hexVal c with
  | none => simp
  | some n => simp

theorem refused_byte {c : Byte} (hpercent : c ≠ ch '%') : Refused [c] ↔ c = 0 := by
  unfold Refused
  constructor
  · rintro (h | ⟨behind, h, -⟩)
    · exact (List.cons.inj h).1
    · exact absurd (List.cons.inj h).1 hpercent
  · rintro rfl
    exact Or.inl rfl

theorem refused_escape (hi lo : Byte) : Refused [ch '%', hi, lo] ↔ hex hi = -1 ∨ hex lo = -1 := by
  rw [hex_isxdigit, hex_isxdigit, ← not_and_or]
  constructor
  · rintro (h | ⟨behind, h, hdigits⟩) ⟨hhi, hlo⟩
    · cases h
    · cases h
      exact hdigits ⟨hi, lo, rfl, hhi, hlo⟩
  · intro h
    refine Or.inr ⟨[hi, lo], rfl, ?_⟩
    rintro ⟨hi', lo', heq, hdigits⟩
    cases heq
    exact h hdigits

theorem unescape_none_iff (text : Bytes) : unescape text = none ↔ ∃ u ∈ units text, Refused u := by
  induction text using unit_induction with
  | nil => simp [unescape, units]
  | short rest hlen =>
    rw [unescape_short hlen, units_short hlen, List.exists_mem_cons_iff]
    refine iff_of_true rfl (Or.inl (Or.inr ⟨rest, rfl, ?_⟩))
    rintro ⟨hi, lo, rfl, -⟩
    exact absurd hlen (Nat.lt_irrefl 2)
  | escape hi lo rest ih =>
    rw [unescape_escape, units_escape, List.exists_mem_cons_iff, refused_escape]
    split_ifs with hdigits
    · simp [hdigits]
    · simp [hdigits, ih]
  | plus rest ih =>
    rw [unescape_plus, units_byte (by decide) (by decide), List.exists_mem_cons_iff,
      refused_byte (by decide), ← ih, Option.map_eq_none_iff]
    exact (or_iff_right (by decide)).symm
  | hash rest => simp [unescape_hash, units_hash]
  | nul rest =>
    rw [unescape_nul, units_byte (by decide) (by decide), List.exists_mem_cons_iff,
      refused_byte (by decide)]
    exact iff_of_true rfl (Or.inl rfl)
  | literal c rest hc ih =>
    rw [unescape_literal hc, units_byte hc.2.2.1 hc.1, List.exists_mem_cons_iff,
      refused_byte hc.1, ← ih, Option.map_eq_none_iff]
    exact (or_iff_right hc.2.2.2).symm

/-! ## Every way to write a string -/

/-- The second text is a way to write the first one. -/
inductive Encodes : Bytes → Bytes → Prop where
  | nil : Encodes [] []
  | escape {hi lo : Byte} {h l : Nat} {v e : Bytes} : hexVal hi = some h → hexVal lo = some l →
      Encodes v e → Encodes (UInt8.ofNat (16 * h + l) :: v) (ch '%' :: hi :: lo :: e)
  | plus {v e : Bytes} : Encodes v e → Encodes (ch ' ' :: v) (ch '+' :: e)
  | literal {b : Byte} {v e : Bytes} : Literal b → Encodes v e → Encodes (b :: v) (b :: e)

theorem Encodes.unescape {v e : Bytes} (h : Encodes v e) : unescape e = some v := by
  induction h with
  | nil => rfl
  | @escape hi lo h l v e hhi hlo _ ih =>
    have hhex : hex hi = h := by rw [hex_val, hhi]
    have hlex : hex lo = l := by rw [hex_val, hlo]
    have hbyte : ((h : Int) * 16 + l).toNat = 16 * h + l := by omega
    rw [unescape_escape, hhex, hlex, if_neg (by omega), ih, hbyte]
    rfl
  | plus _ ih =>
    rw [unescape_plus, ih]
    rfl
  | literal hb _ ih =>
    rw [unescape_literal hb, ih]
    rfl

/-- **Decoding.** Every way to write a string gives the string, the texts without a result are those
with a unit that is refused, and no byte is stored behind the block. -/
theorem url_unescape_iff (pre text rest : Bytes) :
    ∃ ret stored, url_unescape_block (pre ++ (text ++ rest)) pre.length text.length =
      .ok (ret, stored) ∧
      stored ≤ text.length + 1 ∧
      (∀ v : CString, Encodes v.bytes text → ∃ decoded, ret = some decoded ∧
        string_at decoded 0 = .ok v) ∧
      (ret = none ↔ ∃ u ∈ units text, Refused u) := by
  obtain ⟨ret, stored, hrun, hle, hret, hstored⟩ := url_unescape_block_spec pre text rest
  refine ⟨ret, stored, hrun, hle, ?_, ?_⟩
  · intro v hv
    have hdecoded := hv.unescape
    have hlen := hstored v.bytes hdecoded
    refine ⟨padded (text.length + 1) v.bytes, ?_, ?_⟩
    · rw [hret, hdecoded]
      rfl
    · rw [string_padded (by omega), CString.cut_bytes]
  · rw [hret, Option.map_eq_none_iff]
    exact unescape_none_iff text

/-! ## Hidden NULs -/

/-- `%00` -/
def escaped_nul : Bytes := ascii "%00"

theorem hex_range : ∀ b, hex b = -1 ∨ 0 ≤ hex b ∧ hex b < 16 := forall_byte (by decide +kernel)

theorem hex_zero : ∀ b, hex b = 0 ↔ b = ch '0' := forall_byte (by decide +kernel)

theorem escaped_byte {hi lo : Byte} (h : ¬ (hex hi = -1 ∨ hex lo = -1)) :
    0 = UInt8.ofNat (hex hi * 16 + hex lo).toNat ↔ escaped_nul = [ch '%', hi, lo] := by
  rw [not_or] at h
  have hhi := (hex_range hi).resolve_left h.1
  have hlo := (hex_range lo).resolve_left h.2
  have hunit : escaped_nul = [ch '%', hi, lo] ↔ hex hi = 0 ∧ hex lo = 0 := by
    rw [hex_zero, hex_zero]
    constructor
    · intro heq
      cases heq
      exact ⟨rfl, rfl⟩
    · rintro ⟨rfl, rfl⟩
      rfl
  rw [hunit, ← UInt8.toNat_inj, UInt8.toNat_ofNat_of_lt' (by simp; omega)]
  constructor
  · intro heq
    simp at heq
    omega
  · rintro ⟨h0, h0'⟩
    rw [h0, h0']
    rfl

theorem nul_mem_iff {text v : Bytes} (h : unescape text = some v) :
    0 ∈ v ↔ escaped_nul ∈ units text := by
  induction text using unit_induction generalizing v with
  | nil =>
    cases h
    simp [units]
  | short rest hlen =>
    rw [unescape_short hlen] at h
    cases h
  | escape hi lo rest ih =>
    rw [unescape_escape] at h
    split_ifs at h with hdigits
    obtain ⟨w, hw, rfl⟩ := Option.map_eq_some_iff.mp h
    rw [units_escape, List.mem_cons, List.mem_cons, ih hw, escaped_byte hdigits]
  | plus rest ih =>
    rw [unescape_plus] at h
    obtain ⟨w, hw, rfl⟩ := Option.map_eq_some_iff.mp h
    rw [units_byte (by decide) (by decide), List.mem_cons, List.mem_cons, ih hw]
    exact or_congr (by decide) Iff.rfl
  | hash rest =>
    rw [unescape_hash] at h
    cases h
    simp [units_hash]
  | nul rest =>
    rw [unescape_nul] at h
    cases h
  | literal c rest hc ih =>
    rw [unescape_literal hc] at h
    obtain ⟨w, hw, rfl⟩ := Option.map_eq_some_iff.mp h
    rw [units_byte hc.2.2.1 hc.1, List.mem_cons, List.mem_cons, ih hw]
    have hnul : ¬ (0 : Byte) = c := fun heq => hc.2.2.2 heq.symm
    have hunit : escaped_nul ≠ [c] := by
      intro heq
      have hlen : 3 = 1 := congrArg List.length heq
      omega
    simp [hnul, hunit]

theorem cut_length_iff (v : Bytes) : (CString.cut v).bytes.length = v.length ↔ 0 ∉ v := by
  constructor
  · intro hlen h0
    have hwhole : (CString.cut v).bytes = v := (List.takeWhile_prefix (· != 0)).eq_of_length hlen
    exact (CString.cut v).nulFree (hwhole.symm ▸ h0)
  · intro h0
    rw [CString.bytes_cut h0]

/-- What a caller of `httpp_set_query_param` or of `parse_query` leaves in a tree. -/
def Handed (text : Bytes) (s : CString) : Prop :=
  (∀ (tree : var_tree) (name value : CString), value.bytes = text →
    _httpp_set_param tree (some name) (some value) =
      _httpp_set_param_nocopy tree (some name) (some s) true) ∧
  ∀ (tree : var_tree) (pre key rest : Bytes), key ≠ [] → text ≠ [] → ch '=' ∉ text →
    parse_query_element tree (pre ++ (key ++ ch '=' :: text ++ rest)) pre.length
      (some (pre.length + key.length))
      (pre.length + (key ++ ch '=' :: text).length) =
      _httpp_set_param_nocopy tree (some (CString.cut key)) (some s) false

theorem handed_cut {text v : Bytes} (h : unescape text = some v) : Handed text (CString.cut v) := by
  constructor
  · rintro tree name value rfl
    have hrun : url_unescape value.block 0 value.bytes.length = .ok (some (v ++ [0])) := by
      have hblock : value.block.drop 0 = value.bytes ++ [0] := rfl
      have hspec := url_unescape_spec hblock
      rw [h] at hspec
      exact hspec
    unfold _httpp_set_param
    simp only [hrun, ok_bind, Option.mapM_some, string_at_cut]
    rfl
  · intro tree pre key rest hkey htext hequals
    have hmid : Mid pre.length (key ++ ch '=' :: text) (some (pre.length + key.length)) :=
      ⟨key, text, rfl, hequals, rfl⟩
    rw [parse_query_element_spec rest tree hmid]
    unfold store_element
    rw [element_append hequals, if_neg (not_or.mpr ⟨hkey, htext⟩), h]
    rfl

/-- **Hidden NULs.** A decoded value is handed on as a whole when no unit of its text is `%00`. -/
theorem hidden_nul_iff (pre text rest : Bytes) {decoded : Bytes} {stored : Nat}
    (h : url_unescape_block (pre ++ (text ++ rest)) pre.length text.length =
      .ok (some decoded, stored)) :
    ∃ s, string_at decoded 0 = .ok s ∧ Handed text s ∧
      (s.bytes.length + 1 = stored ↔ escaped_nul ∉ units text) := by
  obtain ⟨ret, stored', hrun, hle, hret, hstored⟩ := url_unescape_block_spec pre text rest
  rw [hrun] at h
  cases h
  obtain ⟨v, hv, rfl⟩ := Option.map_eq_some_iff.mp hret.symm
  have hlen := hstored v hv
  refine ⟨CString.cut v, string_padded (by omega), handed_cut hv, ?_⟩
  rw [hlen, Nat.add_right_cancel_iff, cut_length_iff, nul_mem_iff hv]

theorem hidden_nul_iff_plain :
    ∃ s, string_at (padded 4 (ascii "a b")) 0 = .ok s ∧ Handed (ascii "a+b") s ∧
      (s.bytes.length + 1 = 4 ↔ escaped_nul ∉ units (ascii "a+b")) :=
  hidden_nul_iff [] (ascii "a+b") [0] rfl

/-- The `b` behind `%00` is lost. -/
theorem hidden_nul :
    ¬ ∀ (pre text rest : Bytes) (decoded : Bytes) (stored : Nat),
      url_unescape_block (pre ++ (text ++ rest)) pre.length text.length =
      .ok (some decoded, stored) →
        ∃ s, string_at decoded 0 = .ok s ∧ s.bytes.length + 1 = stored := by
  intro h
  obtain ⟨s, hs, hlen⟩ := h [] (ascii "a%00b") [0] _ 4 rfl
  obtain ⟨s', hs', -, hiff⟩ := hidden_nul_iff [] (ascii "a%00b") [0] rfl
  rw [hs] at hs'
  cases hs'
  exact absurd (hiff.mp hlen) (by decide)

end Httpp
