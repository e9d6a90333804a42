import IcecastCommon.Log.Escape

/-!
# What escapes denote

An escape is read with its high digit first. `%H` writes the low digit first.
-/

namespace Log

open Lib vsnprintf_t

/-! ## Reading escapes -/

/-- The value of an escape at the front of a text. -/
def escape_value : Bytes → Option Byte
  | b :: x :: high :: low :: _ =>
    if b = ch '\\' ∧ x = ch 'x' then
      match hexVal high, hexVal low with
      | some high, some low => some (UInt8.ofNat (16 * high + low))
      | _, _ => none
    else none
  | _ => none

/-- Every escape is replaced by its byte. -/
def unescape : Bytes → Bytes
  | [] => []
  | b :: text =>
    match escape_value (b :: text) with
    | some value => value :: unescape (text.drop 3)
    | none => b :: unescape text
termination_by text => text.length
decreasing_by
  · rw [List.length_drop, List.length_cons]
    omega
  · exact Nat.lt_succ_self _

/-- The byte whose digits are the other way round. -/
def swapped (c : Byte) : Byte := UInt8.ofNat (16 * (c.toNat % 16) + c.toNat / 16)

theorem unescape_escape (c : Byte) (text : Bytes) :
    unescape (escape_of c ++ text) = swapped c :: unescape text := by
  have hbyte := c.toNat_lt
  have hlow : hexVal (hexDigit (c.toNat % 16)) = some (c.toNat % 16) :=
    hexVal_hexDigit (Nat.mod_lt _ (by decide))
  have hhigh : hexVal (hexDigit (c.toNat / 16)) = some (c.toNat / 16) := hexVal_hexDigit (by omega)
  have hvalue : escape_value (escape_of c ++ text) = some (swapped c) := by
    simp only [escape_of, List.cons_append, List.nil_append, escape_value, hlow, hhigh, and_self,
      if_true, swapped]
  rw [escape_of, List.cons_append] at hvalue ⊢
  rw [unescape, hvalue]
  rfl

theorem unescape_cons {b : Byte} (hb : b ≠ ch '\\') (text : Bytes) :
    unescape (b :: text) = b :: unescape text := by
  have hvalue : escape_value (b :: text) = none := by
    unfold escape_value
    split
    · rename_i heq
      rw [if_neg fun h => hb ((List.cons.inj heq).1.trans h.1)]
    · rfl
  rw [unescape, hvalue]

theorem swapped_eq : ∀ c, swapped c = c ↔ c.toNat / 16 = c.toNat % 16 :=
  forall_byte (by decide +kernel)

/-! ## Whole texts -/

/-- Every byte is written, and nothing stands for another byte. -/
def Whole (space : Bool) : Bytes → Int → Prop
  | [], _ => True
  | c :: text, len => len ≠ 0 ∧
    if vsnprintf_is_print c space then Whole space text (to_int (len - 1))
    else 4 ≤ len ∧ c.toNat / 16 = c.toNat % 16 ∧ Whole space text (to_int (len - 4))

section Whole

variable {space : Bool} {text : Bytes} {room : Nat} {len : Int}

theorem printed_ne {c : Byte} (hprint : vsnprintf_is_print c space = true) : c ≠ ch '\\' := by
  rintro rfl
  exact absurd hprint (by cases space <;> decide)

theorem unescape_render (hroom : escaped_len space text ≤ room) :
    unescape (render space text room len) = text ↔ Whole space text len := by
  induction text generalizing room len with
  | nil => simp [Whole, unescape]
  | cons c text ih =>
    unfold Whole
    rw [escaped_len_cons] at hroom
    by_cases hzero : len = 0
    · simp [hzero, unescape]
    by_cases hprint : vsnprintf_is_print c space = true
    · rw [if_pos hprint] at hroom
      rw [render_printed hprint (by omega) hzero, unescape_cons (printed_ne hprint),
        List.cons_inj_right, ih (by omega), if_pos hprint, and_iff_right hzero]
    rw [if_neg hprint] at hroom
    rw [if_neg hprint]
    by_cases hshort : len < 4
    · -- A dot is not the byte that is replaced.
      have hdot : ch '.' ≠ c := by
        rintro rfl
        exact hprint (by cases space <;> decide)
      rw [render_dot hprint (by omega) hzero (.inr hshort), unescape_cons (by decide)]
      exact iff_of_false (fun h => hdot (List.cons.inj h).1) fun h => absurd h.2.1 (by omega)
    · rw [render_escape hprint (by omega) (by omega), unescape_escape, List.cons.injEq, swapped_eq,
        ih (by omega), and_iff_right hzero, and_iff_right (Int.not_lt.mp hshort)]

theorem to_int_pred (hlow : -2 ^ 31 ≤ len) (hhigh : len < 2 ^ 31) (hzero : len ≠ 0) :
    to_int (len - 1) % 2 ^ 32 = len % 2 ^ 32 - 1 ∧
      negative_len (to_int (len - 1)) = negative_len len - 1 := by
  rcases eq_or_lt_of_le hlow with hmin | hlt
  · rw [← hmin]
    decide
  · have hnext : to_int (len - 1) = len - 1 := to_int_of_fits (by omega) (by omega)
    rw [hnext]
    unfold negative_len
    constructor
    · omega
    · split_ifs <;> omega

/-- All of the text is written as it is, if the width is enough and nothing that needs an escape
comes too early. -/
theorem whole_iff (hlow : -2 ^ 31 ≤ len) (hhigh : len < 2 ^ 31) :
    Whole space text len ↔ (escaped_len space text : Int) ≤ len % 2 ^ 32 ∧
      (∀ c ∈ text.take (negative_len len), vsnprintf_is_print c space = true) ∧
      ∀ c ∈ text, ¬ vsnprintf_is_print c space = true → c.toNat / 16 = c.toNat % 16 := by
  induction text generalizing len with
  | nil =>
    have hmod : 0 ≤ len % 2 ^ 32 := Int.emod_nonneg len (by decide)
    simpa [Whole] using hmod
  | cons c text ih =>
    unfold Whole
    rw [escaped_len_cons, List.forall_mem_cons]
    by_cases hzero : len = 0
    · subst hzero
      refine iff_of_false (fun h => h.1 rfl) fun h => ?_
      have hle := h.1
      split_ifs at hle <;> omega
    rw [and_iff_right hzero]
    obtain ⟨hmod, hnegative⟩ := to_int_pred hlow hhigh hzero
    by_cases hprint : vsnprintf_is_print c space = true
    · obtain ⟨hlow', hhigh'⟩ := to_int_range (len - 1)
      have htake : (∀ b ∈ (c :: text).take (negative_len len), vsnprintf_is_print b space = true) ↔
          ∀ b ∈ text.take (negative_len len - 1), vsnprintf_is_print b space = true := by
        cases negative_len len with
        | zero => simp
        | succ k => simp [hprint]
      rw [if_pos hprint, if_pos hprint, ih hlow' hhigh', hmod, hnegative, htake]
      simp only [hprint, not_true_eq_false, false_implies, true_and]
      exact and_congr_left' (by omega)
    rw [if_neg hprint, if_neg hprint]
    by_cases hshort : len < 4
    · refine iff_of_false (fun h => absurd h.1 (by omega)) ?_
      rintro ⟨hle, hprinted, -⟩
      rcases lt_or_gt_of_ne hzero with hneg | hpos
      · -- The byte comes while the width is negative.
        obtain ⟨k, hk⟩ : ∃ k, negative_len len = k + 1 :=
          ⟨(len + 2 ^ 31).toNat, by rw [negative_len, if_pos hneg]; omega⟩
        rw [hk] at hprinted
        exact hprint (hprinted c (by simp))
      · omega
    · have hfour : to_int (len - 4) = len - 4 := to_int_of_fits (by omega) (by omega)
      have hnone : negative_len len = 0 := if_neg (by omega)
      have hnone' : negative_len (len - 4) = 0 := if_neg (by omega)
      rw [hfour, ih (by omega) (by omega), hnone, hnone']
      simp only [List.take_zero, List.not_mem_nil, false_implies, implies_true, true_and, hprint,
        Bool.false_eq_true, not_false_eq_true, forall_const]
      constructor
      · rintro ⟨-, hdigits, hle, hrest⟩
        exact ⟨by omega, hdigits, hrest⟩
      · rintro ⟨hle, hdigits, hrest⟩
        exact ⟨by omega, hdigits, by omega, hrest⟩

end Whole

/-! ## The directive -/

/-- What the escapes of the output denote is the argument. -/
def Denotes (d : H) (ap : Nat → va_arg) (size : Nat) (str text : Bytes) : Prop :=
  ∃ str' out, vsnprintf str size d.cformat ap = .ok str' ∧ cstring str' = .ok out ∧
    unescape out = text

theorem quoted_plain {space : Bool} {text : Bytes} {room : Nat} {len : Int}
    (hlen : to_int len = len) :
    quoted false space text room len = render space text room len := by
  have hnone (room : Nat) (len : Int) : quotation false room len = [] := if_neg (by simp)
  simp [quoted, hnone, hlen]

theorem plain_output (d : H) {ap : Nat → va_arg} (hap : d.Terminated ap) {size : Nat}
    {str text : Bytes} (hstr : str.length = size) (halt : d.alt = false) (hwidth : d.width = .none)
    (hpointer : (d.pointer ap).map (·.takeWhile (· != 0)) = some text)
    (hroom : escaped_len d.space text + 1 ≤ size) :
    ∃ str', vsnprintf str size d.cformat ap = .ok str' ∧
      cstring str' = .ok (render d.space text size (int_of_size (escaped_len d.space text))) := by
  have harg : d.arg ap = some text := by
    rw [H.arg, hpointer, named, if_neg (by simp)]
  have hlen : d.len ap = int_of_size (escaped_len d.space text) := by
    simp [H.len, H.given, hwidth, harg, width_of, whole_len, text_len, halt]
  have hle : (render d.space text size (int_of_size (escaped_len d.space text))).length ≤
      escaped_len d.space text :=
    render_le_escaped
  obtain ⟨str', hrun, hout⟩ := H_output d hap (by omega) hstr
  refine ⟨str', hrun, ?_⟩
  rw [hout, H.text, harg, hlen, halt, text_of_H, quoted_plain (to_int_of_size _),
    List.take_of_length_le (by omega)]

theorem unescape_whole {space : Bool} {text : Bytes} {room : Nat}
    (hroom : escaped_len space text ≤ room) :
    unescape (render space text room (int_of_size (escaped_len space text))) = text ↔
      escaped_len space text < 2 ^ 32 ∧
        (∀ c ∈ text.take (escaped_len space text + 1 - 2 ^ 31), vsnprintf_is_print c space = true) ∧
        ∀ c ∈ text, ¬ vsnprintf_is_print c space = true → c.toNat / 16 = c.toNat % 16 := by
  obtain ⟨hlow, hhigh⟩ := to_int_range (int_of_size (escaped_len space text))
  rw [to_int_of_size] at hlow hhigh
  rw [unescape_render hroom, whole_iff hlow hhigh, int_of_size_mod]
  have hfits : ((escaped_len space text : Int) ≤ (if escaped_len space text % 2 ^ 32 < 2 ^ 31
      then ((escaped_len space text % 2 ^ 32 : Nat) : Int)
        else (escaped_len space text % 2 ^ 32 : Nat) - 2 ^ 32) % 2 ^ 32) ↔
      escaped_len space text < 2 ^ 32 := by
    split_ifs <;> omega
  rw [hfits]
  refine and_congr_right fun hlt => ?_
  have hnegative : negative_len (if escaped_len space text % 2 ^ 32 < 2 ^ 31
      then ((escaped_len space text % 2 ^ 32 : Nat) : Int)
        else (escaped_len space text % 2 ^ 32 : Nat) - 2 ^ 32) =
      escaped_len space text + 1 - 2 ^ 31 := by
    unfold negative_len
    split_ifs <;> omega
  rw [hnegative]

/-- **Escapes denote the byte they replace** exactly if both digits of every such byte are the same,
and the text is not longer than an `int` can say. Its bytes beyond `INT_MAX` come first, and no
escape can be among them. -/
theorem H_denotes_iff (d : H) {ap : Nat → va_arg} (hap : d.Terminated ap) {size : Nat}
    {str text : Bytes} (hstr : str.length = size) (halt : d.alt = false) (hwidth : d.width = .none)
    (hpointer : (d.pointer ap).map (·.takeWhile (· != 0)) = some text)
    (hroom : escaped_len d.space text + 1 ≤ size) :
    Denotes d ap size str text ↔ escaped_len d.space text < 2 ^ 32 ∧
      (∀ c ∈ text.take (escaped_len d.space text + 1 - 2 ^ 31),
      vsnprintf_is_print c d.space = true) ∧
      ∀ c ∈ text, ¬ vsnprintf_is_print c d.space = true → c.toNat / 16 = c.toNat % 16 := by
  obtain ⟨str', hrun, hout⟩ := plain_output d hap hstr halt hwidth hpointer hroom
  rw [← unescape_whole (show escaped_len d.space text ≤ size by omega)]
  constructor
  · rintro ⟨str1, out, hrun1, hout1, htext⟩
    obtain rfl := Except.ok.inj (hrun.symm.trans hrun1)
    obtain rfl := Except.ok.inj (hout.symm.trans hout1)
    exact htext
  · exact fun htext => ⟨str', _, hrun, hout, htext⟩

/-- `"%H"` -/
def plain : H := ⟨[], .none⟩

/-- The digits of a quote are the same. -/
theorem H_denotes_quote :
    Denotes plain (pointing (ascii "a\"b")) 20 (List.replicate 20 1) (ascii "a\"b") :=
  (H_denotes_iff plain (pointing_terminated plain _) rfl rfl rfl rfl (by decide)).mpr
    (by decide +kernel)

/-- A line feed becomes `\xa0`. -/
theorem H_not_always_denotes :
    ¬ ∀ (d : H) (ap : Nat → va_arg) (size : Nat) (str text : Bytes), d.Terminated ap →
    str.length = size → d.alt = false → d.width = .none →
      (d.pointer ap).map (·.takeWhile (· != 0)) = some text →
    escaped_len d.space text + 1 ≤ size → Denotes d ap size str text := by
  intro h
  obtain ⟨str', out, hrun, hout, htext⟩ :=
    h plain (pointing [LF]) 5 (List.replicate 5 1) [LF] (pointing_terminated plain _) rfl
    rfl rfl rfl (by decide)
  have hrun1 : vsnprintf (List.replicate 5 1) 5 plain.cformat (pointing [LF]) =
      .ok (escape_of LF ++ [0]) := by decide +kernel
  obtain rfl := Except.ok.inj (hrun.symm.trans hrun1)
  have hout1 : cstring (escape_of LF ++ [0]) = .ok (escape_of LF ++ []) := by decide
  obtain rfl := Except.ok.inj (hout.symm.trans hout1)
  rw [unescape_escape] at htext
  exact absurd (List.cons.inj htext).1 (by decide)

end Log
