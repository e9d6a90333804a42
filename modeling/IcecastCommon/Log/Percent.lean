import IcecastCommon.Log.Directives

/-!
# Doubled percent signs

Every percent sign that is written comes from an argument that was read: the formatter writes none
for `%%`.
-/

namespace Log

open Lib vsnprintf_t

/-! ## Percent signs -/

def percents (text : Bytes) : Nat := text.count (ch '%')

@[simp] theorem percents_append (text text' : Bytes) :
    percents (text ++ text') = percents text + percents text' :=
  List.count_append

theorem percents_le {text text' : Bytes} (h : text.Sublist text') :
    percents text ≤ percents text' := h.count_le _

theorem percents_none {text : Bytes} (h : ch '%' ∉ text) : percents text = 0 :=
  List.count_eq_zero.mpr h

theorem percents_escape : ∀ c, percents (escape_of c) = 0 := forall_byte (by decide +kernel)

theorem percents_piece (space : Bool) (room : Nat) (len : Int) (c : Byte) :
    percents (piece space room len c) ≤ percents [c] := by
  unfold piece
  split_ifs
  · exact le_rfl
  · exact Nat.zero_le _
  · rw [percents_escape]
    exact Nat.zero_le _

theorem percents_render (space : Bool) (text : Bytes) (room : Nat) (len : Int) :
    percents (render space text room len) ≤ percents text := by
  induction text generalizing room len with
  | nil => exact le_rfl
  | cons c text ih =>
    unfold render
    split_ifs
    · exact Nat.zero_le _
    · have hcons : percents (c :: text) = percents [c] + percents text := percents_append [c] text
      rw [percents_append, hcons]
      exact Nat.add_le_add (percents_piece space room len c) (ih _ _)

theorem percents_quotation (alt : Bool) (room : Nat) (len : Int) :
    percents (quotation alt room len) = 0 := by
  unfold quotation
  split_ifs <;> rfl

theorem percents_quoted (alt space : Bool) (text : Bytes) (room : Nat) (len : Int) :
    percents (quoted alt space text room len) ≤ percents text := by
  unfold quoted
  simp only [percents_append, percents_quotation, Nat.zero_add, Nat.add_zero]
  exact percents_render space text _ _

/-! ## Where they come from -/

/-- The string at a pointer. -/
def string_of (arg : Option Bytes) : Bytes := (arg.getD []).takeWhile (· != 0)

theorem percents_of_H (alt space : Bool) (room : Nat) (len : Int) (arg : Option Bytes) :
    percents (text_of_H alt space room len (named alt (arg.map (·.takeWhile (· != 0))))) ≤
      percents (string_of arg) := by
  have hdash : percents (text_of_H alt space room len none) = 0 := by
    unfold text_of_H
    split_ifs <;> rfl
  cases arg with
  | some block =>
    rw [Option.map_some, named, if_neg (by simp)]
    exact percents_quoted alt space _ room len
  | none =>
    rw [Option.map_none, named]
    split_ifs
    · exact percents_quoted alt space _ room len
    · exact hdash.le

/-- The percent signs in the first `i` arguments. -/
def taken (ap : Nat → va_arg) : Nat → Nat
  | 0 => 0
  | i + 1 => taken ap i + percents (string_of (ap i).string)

/-- No more percent signs have been written than have been read. -/
structure Sourced (n : Nat) (ap : Nat → va_arg) (s : vsnprintf_t) : Prop where
  room : Room n 0 s
  fits : to_int s.block_len = s.block_len
  percents : percents s.out ≤ taken ap s.ap

section Runs

variable {n : Nat} {ap : Nat → va_arg} {s : vsnprintf_t}

/-- What `print_arg` does to the state, where its text has up to `k` percent signs. -/
structure Printed (n k : Nat) (s s' : vsnprintf_t) : Prop where
  room : Room n 0 s'
  fits : to_int s'.block_len = s'.block_len
  ap : s'.ap = s.ap
  percents : percents s'.out ≤ percents s.out + k

theorem written_printed {k : Nat} (h : Room n 0 s) {text : Bytes} (htext : text.length ≤ s.size)
    (hk : percents text ≤ k) :
    Printed n k s (s.written text) := by
  refine ⟨written_room h htext, by simp, rfl, ?_⟩
  rw [written_out h, percents_append]
  exact Nat.add_le_add_left hk _

theorem print_arg_printed {arg : Option Bytes} (harg : ∀ block, arg = some block → 0 ∈ block)
    (h : Room n 0 s) (hlen : to_int s.block_len = s.block_len) (format : Byte) :
    Succeeds (print_arg s format arg) (Printed n (percents (string_of arg)) s) := by
  by_cases hH : format = ch 'H'
  · subst hH
    obtain ⟨h1, h2, h3, h4⟩ := written_printed (s := s.closed _) ⟨h.line, h.size, h.fits⟩
      (text_of_H_length s.block_alt s.block_space s.size _ _)
        (percents_of_H s.block_alt s.block_space s.size _ arg)
    exact ⟨_, print_arg_H harg h hlen rfl, ⟨h1, h2, h3, h4⟩⟩
  -- Only `%#H` keeps a null pointer.
  obtain ⟨block, hnul, hsame, hle⟩ : ∃ block, 0 ∈ block ∧
    print_arg s format arg = print_arg s format (some block) ∧
      percents (block.takeWhile (· != 0)) ≤ percents (string_of arg) := by
    cases arg with
    | some block => exact ⟨block, harg block rfl, rfl, le_rfl⟩
    | none =>
      refine ⟨ascii "(null)" ++ [0], by simp, ?_, Nat.zero_le _⟩
      unfold print_arg
      rw [if_pos hH]
      rfl
  rw [hsame, print_arg_copied hH (fun _ => hnul) h hlen rfl, if_pos (.inl hnul)]
  generalize width_of s.block_len (escaped_len s.block_space (block.takeWhile (· != 0))) = len
  have hroom : ((block.takeWhile (· != 0)).take (min s.size (width_left len))).length ≤ s.size := by
    rw [List.length_take]
    omega
  obtain ⟨h1, h2, h3, h4⟩ :=
    written_printed (s := { s with block_alt := false }.closed len) ⟨h.line, h.size, h.fits⟩ hroom
      ((percents_le (List.take_sublist _ _)).trans hle)
  exact succeeds_ok ⟨h1, h2, h3, h4⟩

theorem number_text_plain (format : Byte) (block_size : Int) (a : va_arg) :
    ch '%' ∉ (number_text format block_size a).1 := by
  have hunsigned (m : Nat) : ch '%' ∉ decimal m :=
    fun hmem => absurd (decimal_digits m _ hmem) (by decide)
  have hsigned (m : Int) : ch '%' ∉ signed_decimal m := by
    unfold signed_decimal
    split_ifs
    · exact fun hmem => (List.mem_cons.mp hmem).elim (by decide) (hunsigned _)
    · exact hunsigned _
  unfold number_text
  split_ifs
  · exact hunsigned _
  · exact hsigned _
  · exact hunsigned _
  · exact hsigned _
  · decide

theorem pointer_text_plain (a : va_arg) : ch '%' ∉ pointer_text a := by
  unfold pointer_text
  split_ifs
  · decide
  · rw [List.mem_append, not_or]
    exact ⟨by decide, fun hmem => absurd (hex_digits _ _ hmem) (by decide)⟩

theorem print_text_sourced {text : Bytes} (htext : ch '%' ∉ text) {i : Nat}
    (hi : taken ap s.ap ≤ taken ap i) (h : Sourced n ap s) (format : Byte) :
    Succeeds (print_arg { s with ap := i } format (some (text ++ [0]))) (Sourced n ap) := by
  have hnul : ∀ block, some (text ++ [0]) = some block → 0 ∈ block := by
    rintro _ ⟨⟩
    simp
  have hnone : percents (string_of (some (text ++ [0]))) = 0 := by
    refine percents_none fun hmem => ?_
    rcases List.mem_append.mp ((List.takeWhile_sublist _).subset hmem) with hmem | hmem
    · exact htext hmem
    · exact absurd hmem (by decide)
  obtain ⟨s', hs', hprinted⟩ :=
    print_arg_printed (s := { s with ap := i }) hnul ⟨h.room.line, h.room.size, h.room.fits⟩ h.fits
      format
  refine ⟨s', hs', hprinted.room, hprinted.fits, ?_⟩
  rw [hprinted.ap]
  have hle := hprinted.percents
  rw [hnone] at hle
  exact hle.trans (h.percents.trans hi)

theorem taken_succ (i : Nat) : taken ap i ≤ taken ap (i + 1) := Nat.le_add_right _ _

theorem directive_sourced (hap : ∀ i block, (ap i).string = some block → 0 ∈ block)
    (h : Sourced n ap s) (format : Byte) :
    Succeeds (directive ap s format) (Sourced n ap) := by
  rcases directive_cases ap s format with ⟨s', hrun, hline, hstr, hsize, hnext⟩ |
    ⟨i, text, hi, htext, hrun⟩ | hrun
  · have hfits : to_int s'.block_len = s'.block_len ∧ taken ap s.ap ≤ taken ap s'.ap := by
      rcases hnext with ⟨hlen, hap'⟩ | ⟨hlen, hap'⟩
      · rw [hlen, hap']
        exact ⟨h.fits, le_rfl⟩
      · rw [hlen, hap']
        exact ⟨to_int_of_fits (ap s.ap).int.le_toInt (ap s.ap).int.toInt_lt, taken_succ _⟩
    refine ⟨s', hrun, ⟨hline ▸ h.room.line, by rw [hstr, hsize, h.room.size], Nat.zero_le _⟩,
      hfits.1, ?_⟩
    rw [vsnprintf_t.out, hline, hstr]
    exact h.percents.trans hfits.2
  · have hplain : ch '%' ∉ text := by
      rcases htext with rfl | rfl
      · exact pointer_text_plain _
      · exact number_text_plain _ _ _
    have hnext : taken ap s.ap ≤ taken ap i := by
      rcases hi with rfl | rfl
      · exact le_rfl
      · exact taken_succ _
    rw [hrun]
    exact print_text_sourced hplain hnext h format
  · rw [hrun]
    obtain ⟨s', hs', hprinted⟩ := print_arg_printed (s := { s with ap := s.ap + 1 }) (hap s.ap)
      ⟨h.room.line, h.room.size, h.room.fits⟩ h.fits format
    refine ⟨s', hs', hprinted.room, hprinted.fits, ?_⟩
    rw [hprinted.ap]
    exact hprinted.percents.trans (Nat.add_le_add_right h.percents _)

/-- **No percent sign is written that was not read**, for every format. -/
theorem loop_sourced (hap : ∀ i block, (ap i).string = some block → 0 ∈ block) {fuel : Nat}
    {format : Bytes} (hnul : 0 ∈ format) (hfuel : format.length ≤ fuel) (h : Sourced n ap s) :
    Succeeds (vsnprintf_loop ap fuel format s) (Sourced n ap) := by
  refine vsnprintf_loop_keeps (fun s h =>
    ⟨⟨h.room.line, h.room.size, h.room.fits⟩, rfl, h.percents⟩)
    (fun s c h hsize hpercent => ?_) (fun s _ h =>
      ⟨⟨h.room.line, h.room.size, h.room.fits⟩, Int.bmod_bmod, h.percents⟩)
    (fun s c h => directive_sourced hap h c) hnul hfuel h
  have hroom : Room n 0 (s.written [c]) := written_room h.room (Nat.pos_of_ne_zero hsize)
  have hsub : size_sub s.size 1 = s.size - 1 := size_sub_of_le (Nat.pos_of_ne_zero hsize)
  have hout : (s.literal c).out = s.out ++ [c] := written_out h.room [c]
  have hnone : percents [c] = 0 := percents_none (by simpa using Ne.symm hpercent)
  refine ⟨_, push_eq h.room (Nat.pos_of_ne_zero hsize) c, ?_⟩
  show Sourced n ap { s.stored [c] with size := size_sub s.size 1 }
  rw [hsub]
  refine ⟨⟨hroom.line, hroom.size, hroom.fits⟩, h.fits, ?_⟩
  show percents (s.literal c).out ≤ _
  rw [hout, percents_append, hnone]
  exact h.percents

end Runs

/-! ## Formats -/

namespace Directive

/-- `%s`, `%d`, `%i` and `%u` without anything in between. -/
def Bare : Directive → Prop
  | string _ => True
  | precision _ _ _ _ => False
  | number length _ _ => length = .none

end Directive

namespace Element

def doubled : Element → Bool
  | percent => true
  | _ => false

end Element

/-- What C writes is written, and no argument but those of the directives is read, in a buffer of
any size. -/
def Literal (es : List Element) : Prop :=
  ∀ (ap : Nat → va_arg) (size : Nat) (str : Bytes), Reads ap es 0 → 1 ≤ size → str.length = size →
    ∃ s str', vsnprintf_loop ap (format_of es).block.length (format_of es).block (start str size) =
      .ok s ∧
      s.ap ≤ consumed es ∧ vsnprintf str size (format_of es) ap = .ok str' ∧
      cstring str' = .ok ((text_of_format es).take (size - 1))

section Formats

variable {ap : Nat → va_arg} {es : List Element}

theorem bare_string {d : Directive} (hbare : d.Bare) :
    (∀ block, d.arg.string = some block → 0 ∈ block) ∧
      percents (string_of d.arg.string) ≤ percents d.text := by
  cases d with
  | string arg =>
    have hcut : string_of (some arg.block) = arg.bytes := congrArg CString.bytes (arg.cut_append [])
    refine ⟨fun block hblock => Option.some.inj hblock ▸ List.mem_append_right _ List.mem_cons_self,
      ?_⟩
    show percents (string_of (some arg.block)) ≤ percents arg.bytes
    rw [hcut]
  | precision m hm memory valid => exact hbare.elim
  | number length conversion value =>
    obtain rfl : length = .none := hbare
    exact ⟨fun _ hblock => (nomatch hblock), Nat.zero_le _⟩

theorem arguments_terminated (hbare : ∀ d, .directive d ∈ es → d.Bare) (i : Nat) (block : Bytes)
    (h : (arguments es i).string = some block) : 0 ∈ block := by
  unfold arguments at h
  cases hget : ((es.filterMap Element.directive?).map Directive.arg)[i]? with
  | none =>
    rw [hget] at h
    exact nomatch h
  | some a =>
    rw [hget] at h
    obtain ⟨d, hd, rfl⟩ := List.mem_map.mp (List.mem_of_getElem? hget)
    obtain ⟨e, he, hed⟩ := List.mem_filterMap.mp hd
    cases e with
    | directive d' =>
      obtain rfl := Option.some.inj hed
      exact (bare_string (hbare _ he)).1 block h
    | _ => exact nomatch hed

/-- The doubled percent signs are missing in the arguments. -/
theorem taken_doubled (hbare : ∀ d, .directive d ∈ es → d.Bare) {i : Nat}
    (h : ∀ j, ap (i + j) = arguments es j) :
    taken ap (i + consumed es) + es.countP Element.doubled ≤
      taken ap i + percents (text_of_format es) := by
  induction es generalizing i with
  | nil => exact le_rfl
  | cons e es ih =>
    have hrest : ∀ d, .directive d ∈ es → d.Bare := fun d hd => hbare d (List.mem_cons_of_mem _ hd)
    have htext : text_of_format (e :: es) = e.text ++ text_of_format es := List.flatMap_cons
    rw [htext, percents_append, consumed_cons, List.countP_cons]
    cases e with
    | literal c plain =>
      have hnext := ih hrest h
      show taken ap (i + (0 + consumed es)) + (es.countP Element.doubled + 0) ≤ _
      rw [Nat.zero_add]
      omega
    | percent =>
      have hnext := ih hrest h
      have hone : percents Element.percent.text = 1 := rfl
      show taken ap (i + (0 + consumed es)) + (es.countP Element.doubled + 1) ≤ _
      rw [hone, Nat.zero_add]
      omega
    | directive d =>
      have hfirst : ap i = d.arg := h 0
      have hnext := ih (i := i + 1) hrest fun j => by
        rw [Nat.add_assoc, Nat.add_comm 1 j, h (j + 1)]
        rfl
      have hstep : taken ap (i + 1) ≤ taken ap i + percents d.text := by
        show taken ap i + percents (string_of (ap i).string) ≤ _
        rw [hfirst]
        exact Nat.add_le_add_left (bare_string (hbare d List.mem_cons_self)).2 _
      show taken ap (i + (1 + consumed es)) + (es.countP Element.doubled + 0) ≤
        taken ap i + (percents d.text + _)
      rw [← Nat.add_assoc i]
      omega

theorem percent_of_output (hbare : ∀ d, .directive d ∈ es → d.Bare) {size : Nat}
    (hsize : (text_of_format es).length < size) {str str' : Bytes} (hstr : str.length = size)
    {s : vsnprintf_t}
    (hloop : vsnprintf_loop (arguments es) (format_of es).block.length (format_of es).block
      (start str size) = .ok s)
    (hap : s.ap ≤ consumed es) (hrun : vsnprintf str size (format_of es) (arguments es) = .ok str')
    (hout : cstring str' = .ok ((text_of_format es).take (size - 1))) :
    .percent ∉ es := by
  intro hpercent
  obtain ⟨s1, hloop1, hsourced⟩ := loop_sourced (n := size) (arguments_terminated hbare)
    (List.mem_append_right _ List.mem_cons_self : 0 ∈ (format_of es).block) le_rfl
    (⟨start_room hstr, rfl, Nat.zero_le _⟩ : Sourced size (arguments es) (start str size))
  obtain rfl := Except.ok.inj (hloop.symm.trans hloop1)
  obtain ⟨str1, hrun1, hcut⟩ := vsnprintf_cut (by omega) hloop hsourced.room
  obtain rfl := Except.ok.inj (hrun.symm.trans hrun1)
  have htext : text_of_format es = (s.out.take (size - 1)).takeWhile (· != 0) := by
    have hsame := Except.ok.inj (hout.symm.trans hcut)
    rwa [List.take_of_length_le (by omega)] at hsame
  have hwritten : percents (text_of_format es) ≤ percents s.out := by
    rw [htext]
    exact percents_le ((List.takeWhile_sublist _).trans (List.take_sublist _ _))
  have hread : taken (arguments es) s.ap ≤ taken (arguments es) (consumed es) :=
    monotone_nat_of_le_succ taken_succ hap
  have hdoubled : taken (arguments es) (0 + consumed es) + _ ≤ taken (arguments es) 0 + _ :=
    taken_doubled hbare fun j => by rw [Nat.zero_add]
  have hsome : 0 < es.countP Element.doubled := List.countP_pos_iff.mpr ⟨_, hpercent, rfl⟩
  have hle := hsourced.percents
  rw [Nat.zero_add] at hdoubled
  simp only [taken, Nat.zero_add] at hdoubled
  omega

/-- In each buffer that holds the whole text. -/
theorem format_literal_iff (hbare : ∀ d, .directive d ∈ es → d.Bare) {size : Nat}
    (hsize : (text_of_format es).length < size) {str : Bytes} (hstr : str.length = size) :
    (∃ s str', vsnprintf_loop (arguments es) (format_of es).block.length (format_of es).block
        (start str size) = .ok s ∧
      s.ap ≤ consumed es ∧ vsnprintf str size (format_of es) (arguments es) = .ok str' ∧
      cstring str' = .ok ((text_of_format es).take (size - 1))) ↔
    .percent ∉ es ∧ ∀ d, .directive d ∈ es → d.Kept := by
  constructor
  · rintro ⟨s, str', hloop, hap, hrun, hout⟩
    have hpercent := percent_of_output hbare hsize hstr hloop hap hrun hout
    exact ⟨hpercent, kept_of_output hpercent (arguments_read es) hsize hstr hrun hout⟩
  · rintro ⟨hpercent, hkept⟩
    exact output_of_kept hpercent hkept (arguments_read es) (Nat.one_le_of_lt hsize) hstr

theorem percent_of_literal (hbare : ∀ d, .directive d ∈ es → d.Bare) (h : Literal es) :
    .percent ∉ es := by
  have hstr : (List.replicate ((text_of_format es).length + 1) (0 : Byte)).length =
      (text_of_format es).length + 1 := List.length_replicate
  exact ((format_literal_iff hbare (Nat.lt_succ_self _) hstr).mp
    (h _ _ _ (arguments_read es) (Nat.le_add_left 1 _) hstr)).1

/-- **A format is written as it is meant** exactly if there is no doubled percent sign in it, and
its strings are kept. -/
theorem percent_literal_iff (es : List Element) (hbare : ∀ d, .directive d ∈ es → d.Bare) :
    Literal es ↔ .percent ∉ es ∧ ∀ d, .directive d ∈ es → d.Kept := by
  constructor
  · intro h
    have hpercent := percent_of_literal hbare h
    refine ⟨hpercent, kept_of_agrees hpercent fun ap size str hreads hsize hstr => ?_⟩
    obtain ⟨s, str', -, -, hrun, hout⟩ := h ap size str hreads hsize hstr
    exact ⟨str', hrun, hout⟩
  · rintro ⟨hpercent, hkept⟩ ap size str hreads hsize hstr
    exact output_of_kept hpercent hkept hreads hsize hstr

end Formats

/-- `"%s: %u"`, with an empty string. -/
def empty_label : List Element :=
  [.directive (.string (.cut [])), .literal (ch ':') (by decide), .literal (ch ' ') (by decide),
    .directive (.number .none .u 7)]

theorem label_kept : ∀ d, .directive d ∈ empty_label → d.Bare ∧ d.Kept := by
  intro d hd
  simp only [empty_label, List.mem_cons, List.not_mem_nil, or_false, reduceCtorEq,
    Element.directive.injEq, false_or] at hd
  rcases hd with rfl | rfl
  · exact ⟨trivial, Nat.zero_le _⟩
  · exact ⟨rfl, trivial⟩

theorem percent_literal_label : Literal empty_label :=
  (percent_literal_iff empty_label fun d hd => (label_kept d hd).1).mpr
    ⟨by simp [empty_label], fun d hd => (label_kept d hd).2⟩

/-- `"%%d"` -/
theorem percent_not_always_literal : ¬ ∀ es, (∀ d, .directive d ∈ es → d.Bare) → Literal es := by
  intro h
  have hbare : ∀ d, .directive d ∈ [Element.percent, .literal (ch 'd') (by decide)] → d.Bare := by
    simp
  exact percent_of_literal hbare (h _ hbare) List.mem_cons_self

end Log
