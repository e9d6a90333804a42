import IcecastCommon.Log.Denote

/-!
# Escapes at the end of the buffer

The last byte of the buffer counts as room for an escape, and the NUL takes it back.
-/

namespace Log

open Lib vsnprintf_t

/-! ## Whole escapes -/

/-- Two digits follow each backslash and its `x`. -/
def EscapesWhole (out : Bytes) : Prop := ∀ u v, out = u ++ ch '\\' :: v →
  ∃ high low rest, v = ch 'x' :: high :: low :: rest ∧ isxdigit high = true ∧ isxdigit low = true

theorem whole_nil : EscapesWhole [] := fun u v h => absurd h (by simp)

theorem whole_cons {b : Byte} (hb : b ≠ ch '\\') {out : Bytes} (h : EscapesWhole out) :
    EscapesWhole (b :: out) := by
  intro u v hout
  cases u with
  | nil => exact absurd (List.cons.inj hout).1 hb
  | cons a u => exact h u v (List.cons.inj hout).2

theorem digit_plain {d : Nat} (hd : d < 16) :
    isxdigit (hexDigit d) = true ∧ hexDigit d ≠ ch '\\' := by
  have hall : ∀ d : Fin 16, isxdigit (hexDigit d) = true ∧ hexDigit d ≠ ch '\\' := by decide
  exact hall ⟨d, hd⟩

theorem whole_escape (c : Byte) {out : Bytes} (h : EscapesWhole out) :
    EscapesWhole (escape_of c ++ out) := by
  have hbyte := c.toNat_lt
  obtain ⟨hlow, hlow'⟩ := digit_plain (Nat.mod_lt c.toNat (show 0 < 16 by decide))
  obtain ⟨hhigh, hhigh'⟩ := digit_plain (show c.toNat / 16 < 16 by omega)
  intro u v hout
  cases u with
  | nil => exact ⟨_, _, out, (List.cons.inj hout).2.symm, hlow, hhigh⟩
  | cons a u =>
    have hrest :
        EscapesWhole (ch 'x' :: hexDigit (c.toNat % 16) :: hexDigit (c.toNat / 16) :: out) :=
      whole_cons (by decide) (whole_cons hlow' (whole_cons hhigh' h))
    exact hrest u v (List.cons.inj hout).2

theorem whole_append {out closing : Bytes} (h : EscapesWhole out) (hclosing : ch '\\' ∉ closing) :
    EscapesWhole (out ++ closing) := by
  intro u v hout
  rcases List.append_eq_append_iff.mp hout with ⟨w, rfl, hw⟩ | ⟨w, rfl, hw⟩
  · exact absurd (by rw [hw]; simp) hclosing
  · cases w with
    | nil => exact absurd (by rw [← List.nil_append closing, ← hw]; simp) hclosing
    | cons b w =>
      obtain ⟨rfl, rfl⟩ := List.cons.inj hw
      obtain ⟨high, low, rest, rfl, hdigits⟩ := h u w rfl
      exact ⟨high, low, rest ++ closing, rfl, hdigits⟩

theorem render_whole (space : Bool) (text : Bytes) (room : Nat) (len : Int) :
    EscapesWhole (render space text room len) := by
  induction text generalizing room len with
  | nil => exact whole_nil
  | cons c text ih =>
    unfold render
    split_ifs with hend
    · exact whole_nil
    dsimp only
    unfold piece
    split_ifs with hprint hshort
    · exact whole_cons (printed_ne hprint) (ih _ _)
    · exact whole_cons (by decide) (ih _ _)
    · exact whole_escape c (ih _ _)

theorem quoted_whole (alt space : Bool) (text : Bytes) (room : Nat) (len : Int) :
    EscapesWhole (quoted alt space text room len) := by
  have hquote {room : Nat} {len : Int} : ch '\\' ∉ quotation alt room len :=
    fun hmem => absurd (quotation_bytes _ hmem).1 (by decide)
  unfold quoted
  extract_lets opening front
  refine whole_append ?_ hquote
  have hbody := render_whole space text (room - opening.length) (to_int (len - opening.length))
  show EscapesWhole (opening ++ _)
  unfold opening quotation
  split_ifs
  · exact whole_cons (by decide) (render_whole _ _ _ _)
  · exact render_whole _ _ _ _

/-! ## The last byte -/

/-- An escape ends on the last of `room` bytes, in a block of `p` bytes. -/
def Cut (space : Bool) (text : Bytes) (room p : Nat) : Prop :=
  ∃ u c v, text = u ++ c :: v ∧ ¬ vsnprintf_is_print c space = true ∧
    escaped_len space u + 4 = room ∧ room ≤ p

section Cut

variable {space : Bool} {text : Bytes} {room p : Nat} {len : Int}

theorem render_cut (h : Cut space text room p) (hp : p < 2 ^ 31) :
    ∃ front c, render space text room p = front ++ escape_of c ∧ front.length + 4 = room := by
  obtain ⟨u, c, v, rfl, hc, hroom, hle⟩ := h
  induction u generalizing room p with
  | nil =>
    obtain rfl : room = 4 := hroom.symm
    refine ⟨[], c, ?_, rfl⟩
    rw [List.nil_append, render_escape hc le_rfl (by omega)]
    simp
  | cons b u ih =>
    rw [escaped_len_cons] at hroom
    rw [List.cons_append]
    split_ifs at hroom with hb
    · obtain ⟨front, c', hrender, hlength⟩ :=
        @ih (room - 1) (p - 1) (by omega) (by omega) (by omega)
      refine ⟨b :: front, c', ?_, by rw [List.length_cons]; omega⟩
      rw [render_printed hb (by omega) (by omega)]
      have hone : to_int ((p : Int) - 1) = ((p - 1 : Nat) : Int) :=
        to_int_nat_sub (show 1 ≤ p by omega) hp
      rw [hone, hrender, List.cons_append]
    · obtain ⟨front, c', hrender, hlength⟩ :=
        @ih (room - 4) (p - 4) (by omega) (by omega) (by omega)
      refine ⟨escape_of b ++ front, c', ?_, by rw [List.length_append]; show 4 + _ + 4 = _; omega⟩
      have hfour : to_int ((p : Int) - 4) = ((p - 4 : Nat) : Int) :=
        to_int_nat_sub (show 4 ≤ p by omega) hp
      rw [render_escape hb (by omega) (by omega), hfour, hrender, List.append_assoc]

theorem Cut.behind {c : Byte} {k : Nat} (h : Cut space text room p)
    (hk : (if vsnprintf_is_print c space then 1 else 4) = k) :
    Cut space (c :: text) (room + k) (p + k) := by
  obtain ⟨u, b, v, rfl, hb, hroom, hle⟩ := h
  refine ⟨c :: u, b, v, rfl, hb, ?_, Nat.add_le_add_right hle k⟩
  rw [escaped_len_cons, hk]
  omega

/-- Otherwise, a byte less in the buffer is the same text with a byte less. -/
theorem render_pred (h : ¬ Cut space text room p) (hp : p < 2 ^ 31) :
    (render space text room p).take (room - 1) = render space text (room - 1) p := by
  induction text generalizing room p with
  | nil => simp
  | cons c text ih =>
    rcases Nat.eq_zero_or_pos p with rfl | hpos
    · simp
    obtain ⟨p, rfl⟩ : ∃ q, p = q + 1 := ⟨p - 1, by omega⟩
    rcases Nat.lt_or_ge room 2 with hsmall | hroom
    · have hnone : room - 1 = 0 := by omega
      rw [hnone, List.take_zero, render_no_room]
    obtain ⟨room, rfl⟩ : ∃ r, room = r + 1 := ⟨room - 1, by omega⟩
    rw [Nat.add_sub_cancel]
    have hone : to_int (((p + 1 : Nat) : Int) - 1) = (p : Int) :=
      to_int_nat_sub (Nat.le_add_left 1 p) hp
    have hnext (hcut : ¬ Cut space text room p) :
        (render space text room p).take (room - 1) = render space text (room - 1) p :=
        ih hcut (by omega)
    have htake (b : Byte) (rest : Bytes) : (b :: rest).take room = b :: rest.take (room - 1) := by
      obtain ⟨r, rfl⟩ : ∃ r, room = r + 1 := ⟨room - 1, by omega⟩
      rfl
    by_cases hprint : vsnprintf_is_print c space = true
    · rw [render_printed hprint (by omega) (by omega), render_printed hprint (by omega) (by omega),
        hone, Nat.add_sub_cancel, htake, hnext fun hcut => h (hcut.behind (if_pos hprint))]
    by_cases hshort : room + 1 < 4 ∨ p + 1 < 4
    · have hcut : ¬ Cut space text room p := by
        rintro ⟨u, b, v, -, -, hlast, hle⟩
        omega
      rw [render_dot hprint (by omega) (by omega) (by omega),
        render_dot hprint (by omega) (by omega) (by omega), hone,
        Nat.add_sub_cancel, htake, hnext hcut]
    · -- With four bytes left, the escape would end on the last one.
      have hmore : 4 ≤ room := by
        by_contra hless
        exact h ⟨[], c, text, rfl, hprint, by rw [escaped_len_nil]; omega, by omega⟩
      obtain ⟨room, rfl⟩ : ∃ r, room = r + 4 := ⟨room - 4, by omega⟩
      obtain ⟨p, rfl⟩ : ∃ q, p = q + 3 := ⟨p - 3, by omega⟩
      have hfour : to_int (((p + 3 + 1 : Nat) : Int) - 4) = (p : Int) :=
        to_int_nat_sub (Nat.le_add_left 4 p) hp
      have hrest : (render space text (room + 1) p).take room = render space text room p :=
        @ih (room + 1) p (fun hcut => h (hcut.behind (if_neg hprint))) (by omega)
      rw [render_escape hprint (by omega) (by omega),
        render_escape hprint (by omega) (by omega), hfour]
      show (escape_of c ++ render space text (room + 1) p).take (room + 4) =
        escape_of c ++ render space text room p
      rw [Nat.add_comm room 4, ← hrest]
      exact @List.take_length_add_append _ (escape_of c) _ room

/-- An escape ends on the last of `room` bytes. -/
def CutOff (space : Bool) (text : Bytes) (room : Nat) (len : Int) : Prop :=
  Cut space (text.drop (negative_len len)) (room - negative_len len) (positive_len len)

theorem render_cut_off (h : CutOff space text room len) (hlow : -2 ^ 31 ≤ len)
    (hhigh : len < 2 ^ 31) :
    ∃ front c, render space text room len = front ++ escape_of c ∧ front.length + 4 = room := by
  obtain ⟨front, c, hrender, hlength⟩ := render_cut h (positive_len_lt hhigh)
  obtain ⟨u, b, v, hdrop, -⟩ := h
  have htext : negative_len len ≤ text.length := by
    by_contra hlong
    rw [List.drop_of_length_le (by omega)] at hdrop
    exact absurd hdrop.symm (by simp)
  refine ⟨((text.take (negative_len len)).map (dotted space)).take room ++ front, c, ?_, ?_⟩
  · rw [render_phases hlow, hrender, List.append_assoc]
  · rw [List.length_append, List.length_take, List.length_map, List.length_take,
      Nat.min_eq_left htext]
    omega

theorem render_keeps (h : ¬ CutOff space text room len) (hlow : -2 ^ 31 ≤ len)
    (hhigh : len < 2 ^ 31) :
    (render space text room len).take (room - 1) = render space text (room - 1) len := by
  have hpred := render_pred h (positive_len_lt hhigh)
  rw [render_phases hlow, render_phases hlow]
  by_cases hmore : room ≤ negative_len len
  · have hnone : room - negative_len len = 0 := Nat.sub_eq_zero_of_le hmore
    have hnone' : room - 1 - negative_len len = 0 := by omega
    rw [hnone, hnone', render_no_room, List.append_nil, List.append_nil, List.take_take,
      Nat.min_eq_left (Nat.sub_le _ _)]
  have hdots : ((text.take (negative_len len)).map (dotted space)).length ≤ negative_len len := by
    rw [List.length_map, List.length_take]
    exact Nat.min_le_left _ _
  have hwhole : ((text.take (negative_len len)).map (dotted space)).take room =
      (text.take (negative_len len)).map (dotted space) :=
    List.take_of_length_le (by omega)
  have hwhole' : ((text.take (negative_len len)).map (dotted space)).take (room - 1) =
      (text.take (negative_len len)).map (dotted space) := List.take_of_length_le (by omega)
  rw [hwhole, List.take_append, hwhole', Nat.sub_right_comm room 1 (negative_len len), ← hpred]
  by_cases hlong : negative_len len ≤ text.length
  · rw [List.length_map, List.length_take, Nat.min_eq_left hlong, Nat.sub_right_comm]
  · rw [List.drop_of_length_le (by omega), render_nil, List.take_nil, List.take_nil]

end Cut

/-! ## The directive -/

/-- The same behind the quote, if there is one. -/
def QuotedCut (alt space : Bool) (text : Bytes) (room : Nat) (len : Int) : Prop :=
  let quote : Nat := if alt then 1 else 0
  len ≠ 0 ∧ CutOff space text (room - quote) (to_int (len - quote))

section Quoted

variable {alt space : Bool} {text : Bytes} {room : Nat} {len : Int}

theorem quotation_eq (hroom : room ≠ 0) (hlen : len ≠ 0) :
    quotation alt room len = if alt then [ch '"'] else [] := by
  simp [quotation, hroom, hlen]

@[simp] theorem quotation_no_room : quotation alt 0 len = [] := if_neg (by simp)

theorem quoted_no_width : quoted alt space text room 0 = [] := by
  have hnone (room : Nat) : quotation alt room 0 = [] := if_neg (by simp)
  have hto : to_int 0 = 0 := rfl
  simp [quoted, hnone, hto]

/-- The last quote is not written either, where there is no room for it. -/
theorem closing_keeps {front : Bytes} (hfront : front.length ≤ room) (hroom : 1 ≤ room) :
    (front ++ quotation alt (room - front.length) (to_int (len - front.length))).take (room - 1) =
      front.take (room - 1) ++
        quotation alt (room - 1 - (front.take (room - 1)).length)
          (to_int (len - (front.take (room - 1)).length)) := by
  by_cases hfull : room - 1 ≤ front.length
  · have hlength : (front.take (room - 1)).length = room - 1 := List.length_take_of_le hfull
    rw [List.take_append_of_le_length hfull, hlength, Nat.sub_self, quotation_no_room,
      List.append_nil]
  · have hwhole : front.take (room - 1) = front := List.take_of_length_le (by omega)
    have hquote := quotation_le_one alt (room - front.length) (to_int (len - front.length))
    rw [hwhole, List.take_of_length_le (by rw [List.length_append]; omega)]
    have hsame : quotation alt (room - front.length) (to_int (len - front.length)) =
        quotation alt (room - 1 - front.length) (to_int (len - front.length)) := by
      unfold quotation
      exact if_congr (and_congr_right' (and_congr_left' (iff_of_true (by omega) (by omega)))) rfl
        rfl
    rw [hsame]

theorem quoted_keeps (h : ¬ QuotedCut alt space text room len) (hroom : 1 ≤ room) :
    (quoted alt space text room len).take (room - 1) = quoted alt space text (room - 1) len := by
  by_cases hlen : len = 0
  · rw [hlen, quoted_no_width, quoted_no_width, List.take_nil]
  rcases Nat.lt_or_ge room 2 with hone | htwo
  · have hnone : room - 1 = 0 := by omega
    have hnil : quoted alt space text 0 len = [] :=
      List.eq_nil_of_length_eq_zero (Nat.le_zero.mp (quoted_length alt space text 0 len))
    rw [hnone, hnil, List.take_zero]
  obtain ⟨hlow, hhigh⟩ := to_int_range (len - (if alt then 1 else 0 : Nat))
  have hbody := render_keeps (fun hcut => h ⟨hlen, hcut⟩) hlow hhigh
  have hopening : quotation alt room len = if alt then [ch '"'] else [] :=
    quotation_eq (by omega) hlen
  have hopening' : quotation alt (room - 1) len = if alt then [ch '"'] else [] :=
    quotation_eq (by omega) hlen
  have hquote : (if alt then [ch '"'] else [] : Bytes).length = if alt then 1 else 0 := by
    split_ifs <;> rfl
  unfold quoted
  rw [hopening, hopening']
  generalize (if alt then [ch '"'] else [] : Bytes) = opening at hquote ⊢
  rw [← hquote] at hbody
  dsimp only
  have hshort : opening.length ≤ 1 := by
    rw [hquote]
    split_ifs <;> omega
  have hbody' :
    (opening ++ render space text (room - opening.length) (to_int (len - opening.length))).take
    (room - 1) =
      opening ++ render space text (room - 1 - opening.length) (to_int (len - opening.length)) := by
    rw [List.take_append, List.take_of_length_le (by omega),
      Nat.sub_right_comm room 1 opening.length, hbody]
  have hfront :
      (opening ++ render space text (room - opening.length)
        (to_int (len - opening.length))).length ≤ room := by
    have hle := render_length space text (room - opening.length) (to_int (len - opening.length))
    rw [List.length_append]
    omega
  rw [closing_keeps hfront hroom, hbody']

theorem quoted_cut (h : QuotedCut alt space text room len) :
    ∃ front c, quoted alt space text room len = front ++ escape_of c ∧ front.length + 4 = room := by
  obtain ⟨hlen, hcut⟩ := h
  obtain ⟨hlow, hhigh⟩ := to_int_range (len - (if alt then 1 else 0 : Nat))
  obtain ⟨front, c, hrender, hlength⟩ := render_cut_off hcut hlow hhigh
  have hquote : (if alt then [ch '"'] else [] : Bytes).length = if alt then 1 else 0 := by
    split_ifs <;> rfl
  have hopening : quotation alt room len = if alt then [ch '"'] else [] :=
    quotation_eq (by omega) hlen
  refine ⟨(if alt then [ch '"'] else []) ++ front, c, ?_, ?_⟩
  · unfold quoted
    rw [hopening]
    dsimp only
    rw [hquote, hrender]
    have hfull :
        room - ((if alt then [ch '"'] else [] : Bytes) ++ (front ++ escape_of c)).length = 0 := by
      rw [List.length_append, List.length_append, hquote]
      show room - (_ + (front.length + 4)) = 0
      omega
    rw [hfull, quotation_no_room, List.append_nil, List.append_assoc]
  · rw [List.length_append, hquote]
    omega

end Quoted

/-- Every escape of the output is complete, and the others are dots: the output is the text of a
buffer without the last byte. -/
structure Complete (d : H) (ap : Nat → va_arg) (size : Nat) (out : Bytes) : Prop where
  whole : EscapesWhole out
  text : out = d.text ap (size - 1)

theorem text_of_H_whole (alt space : Bool) (room : Nat) (len : Int) (arg : Option Bytes) :
    EscapesWhole (text_of_H alt space room len arg) := by
  match arg with
  | none =>
    unfold text_of_H
    split_ifs
    · exact whole_cons (by decide) whole_nil
    · exact whole_nil
  | some text => exact quoted_whole alt space text room len

theorem cut_not_whole {front : Bytes} {c : Byte} {room : Nat} (hroom : front.length + 4 = room) :
    ¬ EscapesWhole ((front ++ escape_of c).take (room - 1)) := by
  have htake :
      (front ++ escape_of c).take (room - 1) =
      front ++ ch '\\' :: [ch 'x', hexDigit (c.toNat % 16)] := by
    have hthree : room - 1 = front.length + 3 := by omega
    rw [hthree, List.take_length_add_append]
    rfl
  intro h
  obtain ⟨high, low, rest, hv, -⟩ := h _ _ htake
  exact absurd (congrArg List.length hv) (by simp)

/-- **Truncation cuts an escape** exactly if one ends on the last byte of the buffer. -/
theorem H_complete_iff (d : H) {ap : Nat → va_arg} (hap : d.Terminated ap) {size : Nat}
    (hsize : 1 ≤ size) {str : Bytes} (hstr : str.length = size) :
    (∃ str' out, vsnprintf str size d.cformat ap = .ok str' ∧ cstring str' = .ok out ∧
      Complete d ap size out) ↔
      ¬ ∃ text, d.arg ap = some text ∧ QuotedCut d.alt d.space text size (d.len ap) := by
  obtain ⟨str', hrun, hout⟩ := H_output d hap hsize hstr
  constructor
  · rintro ⟨str1, out, hrun1, hout1, hcomplete⟩ ⟨text, harg, hcut⟩
    obtain rfl := Except.ok.inj (hrun.symm.trans hrun1)
    obtain rfl := Except.ok.inj (hout.symm.trans hout1)
    obtain ⟨front, c, hquoted, hlength⟩ := quoted_cut hcut
    have hwhole := hcomplete.whole
    rw [H.text, harg, text_of_H, hquoted] at hwhole
    exact cut_not_whole hlength hwhole
  · intro h
    have htext : (d.text ap size).take (size - 1) = d.text ap (size - 1) := by
      unfold H.text
      cases harg : d.arg ap with
      | none =>
        obtain ⟨room, rfl⟩ : ∃ room, size = room + 1 := ⟨size - 1, by omega⟩
        rw [Nat.add_sub_cancel]
        unfold text_of_H
        cases room with
        | zero => simp
        | succ room => split_ifs <;> simp_all
      | some text => exact quoted_keeps (fun hcut => h ⟨text, harg, hcut⟩) hsize
    refine ⟨str', _, hrun, hout, ?_, htext⟩
    rw [htext]
    exact text_of_H_whole _ _ _ _ _

/-- Five bytes have room for the escape and the NUL. -/
theorem H_complete_five :
    ∃ str' out, vsnprintf (List.replicate 5 1) 5 plain.cformat (pointing [LF]) = .ok str' ∧
    cstring str' = .ok out ∧ Complete plain (pointing [LF]) 5 out :=
  (H_complete_iff plain (pointing_terminated plain _) (by decide) rfl).mpr
    fun ⟨text, htext, _, hcut⟩ => by
    obtain rfl := Option.some.inj ((pointing_arg plain (by decide)).symm.trans htext)
    obtain ⟨u, c, v, -, -, hroom, hle⟩ := hcut
    have hwidth : positive_len (to_int (plain.len (pointing [LF]) - 0)) = 4 := by decide
    exact absurd (hle.trans hwidth.le) (by decide)

/-- In four bytes, the NUL takes the last digit. -/
theorem H_not_always_complete :
    ¬ ∀ (d : H) (ap : Nat → va_arg) (size : Nat) (str : Bytes), d.Terminated ap → 1 ≤ size →
    str.length = size → ∃ str' out, vsnprintf str size d.cformat ap = .ok str' ∧
      cstring str' = .ok out ∧
      Complete d ap size out := by
  intro h
  obtain ⟨str', out, hrun, hout, hcomplete⟩ :=
    h plain (pointing [LF]) 4 (List.replicate 4 1) (pointing_terminated plain _) (by decide) rfl
  have hrun1 : vsnprintf (List.replicate 4 1) 4 plain.cformat (pointing [LF]) =
      .ok (ascii "\\xa" ++ [0]) := by decide +kernel
  obtain rfl := Except.ok.inj (hrun.symm.trans hrun1)
  have hout1 : cstring (ascii "\\xa" ++ [0]) = .ok (([] ++ escape_of LF).take (4 - 1)) := by decide
  obtain rfl := Except.ok.inj (hout.symm.trans hout1)
  exact @cut_not_whole [] LF 4 rfl hcomplete.whole

end Log
