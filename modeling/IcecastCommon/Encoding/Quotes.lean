import IcecastCommon.Encoding.Write

/-!
# Quoted strings in headers

The search for the end of a header goes by its own rule for quoted strings, the writer's escapes
by another. Where the header of a written chunk ends for the reader depends on the values.
-/

namespace Encoding

open Lib

/-! ## What the values do -/

/-- `in_quote` after an escaped value that starts inside a quoted string. -/
def inside (in_quote : Nat) (value : Bytes) : Nat :=
  value.foldl (fun q c => if c = QUOTE then 1 else if c = BACKSLASH then 2 else q) in_quote

/-- `in_quote` after an escaped value that starts outside: its first quote opens a string.
`none` if there is a CR LF before. -/
def outside (value : Bytes) : Option Nat :=
  if crlf <:+: value.takeWhile (· != QUOTE) then none
  else match value.dropWhile (· != QUOTE) with
    | [] => some 0
    | _ :: rest => some (inside 1 rest)

def after_value (in_quote : Nat) (value : Bytes) : Option Nat :=
  if in_quote = 0 then outside value else some (inside in_quote value)

/-- A quote that is not escaped. -/
def toggle (in_quote : Nat) : Nat := if in_quote = 0 then 1 else in_quote - 1

def after_key (in_quote : Nat) (key : Bytes) : Nat :=
  if in_quote ≠ 0 ∧ BACKSLASH ∈ key then 2 else in_quote

/-- `in_quote` after the metadata. The first NUL of a value is the end of the text. -/
def after_pairs (in_quote : Nat) : List Pair → Option Nat
  | [] => some in_quote
  | p :: ps =>
    let in_quote := after_key in_quote p.1
    if p.2 = [] then after_pairs in_quote ps
    else if 0 ∈ p.2 then after_value (toggle in_quote) (p.2.takeWhile (· != 0))
    else (after_value (toggle in_quote) p.2).bind fun in_quote => after_pairs (toggle in_quote) ps

/-- The quoted strings of the metadata are closed in the end. -/
def Balanced (ps : List Pair) : Prop := after_pairs 0 ps = some 0

instance (ps : List Pair) : Decidable (Balanced ps) := inferInstanceAs (Decidable (_ = _))

/-! ## What the text does -/

/-- `in_quote` after some text of a header, where `cr` tells whether a CR outside of quoted
strings comes directly before. `none` if the header ends in the text. -/
def after_text (in_quote : Nat) (cr : Bool) : Bytes → Option Nat
  | [] => some in_quote
  | c :: rest =>
    if in_quote ≠ 0 then after_text (step_quote in_quote c) false rest
    else if c = QUOTE then after_text 1 false rest
    else if c = LF ∧ cr then none
    else after_text 0 (c = CR) rest

theorem after_text_append {u w : Bytes} (hw : w.head? ≠ some LF) (in_quote : Nat) (cr : Bool) :
    after_text in_quote cr (u ++ w) = (after_text in_quote cr u).bind fun q =>
      after_text q false w := by
  induction u generalizing in_quote cr with
  | nil =>
    cases w with
    | nil => rfl
    | cons c w =>
      have hc : c ≠ LF := by simpa using hw
      simp [after_text, hc]
  | cons c u ih =>
    simp only [List.cons_append, after_text]
    split_ifs
    · exact ih _ _
    · exact ih _ _
    · rfl
    · exact ih _ _

theorem after_text_plain {u : Bytes} (hu : QUOTE ∉ u) (hLF : LF ∉ u) (in_quote : Nat) (cr : Bool) :
    after_text in_quote cr u = some (after_key in_quote u) := by
  induction u generalizing in_quote cr with
  | nil => simp [after_text, after_key]
  | cons c u ih =>
    rw [List.mem_cons, not_or] at hu hLF
    have hc : c ≠ QUOTE := fun h => hu.1 h.symm
    have hc' : c ≠ LF := fun h => hLF.1 h.symm
    simp only [after_text, ih hu.2 hLF.2]
    by_cases hin : in_quote = 0
    · simp [hin, hc, hc', after_key]
    · by_cases hback : c = BACKSLASH
      · simp [hin, after_key, step_quote, hback]
      · have hback' : BACKSLASH ≠ c := fun h => hback h.symm
        simp [hin, after_key, step_quote_plain hc hback, hback']

theorem after_text_quote (in_quote : Nat) (cr : Bool) (rest : Bytes) :
    after_text in_quote cr (QUOTE :: rest) = after_text (toggle in_quote) false rest := by
  have hstep : step_quote in_quote QUOTE = in_quote - 1 := by simp [step_quote, QUOTE, BACKSLASH]
  unfold toggle
  by_cases hin : in_quote = 0
  · rw [after_text, if_neg (not_not.mpr hin), if_pos rfl, if_pos hin]
  · rw [after_text, if_pos hin, if_neg hin, hstep]

theorem after_text_inside {in_quote : Nat} (hin : in_quote ≠ 0) (value : Bytes) (cr : Bool) :
    after_text in_quote cr (escape value) = some (inside in_quote value) := by
  induction value generalizing in_quote cr with
  | nil => rfl
  | cons c value ih =>
    have hinside : inside in_quote (c :: value) =
        inside (if c = QUOTE then 1 else if c = BACKSLASH then 2 else in_quote) value := rfl
    rw [escape_cons, hinside]
    by_cases hc : c = QUOTE
    · subst hc
      have htwo : step_quote in_quote BACKSLASH = 2 := by simp [step_quote]
      have hone : step_quote 2 QUOTE = 1 := rfl
      simp only [if_true, List.cons_append, List.nil_append, after_text, if_pos hin, htwo, hone]
      rw [if_pos (by decide), ih (by decide)]
    · simp only [if_neg hc, List.cons_append, List.nil_append, after_text, if_pos hin]
      by_cases hback : c = BACKSLASH
      · have htwo : step_quote in_quote c = 2 := by simp [step_quote, hback]
        rw [htwo, if_pos hback, ih (by decide)]
      · rw [step_quote_plain hc hback, if_neg hback, ih hin]

theorem crlf_prefix_iff {c : Byte} {u : Bytes} : crlf <+: c :: u ↔ c = CR ∧ u.head? = some LF := by
  rw [crlf, List.cons_prefix_cons, eq_comm]
  cases u with
  | nil => simp
  | cons d u => simp [List.cons_prefix_cons, eq_comm]

theorem after_text_unquoted {u : Bytes} (hu : QUOTE ∉ u) (cr : Bool) :
    after_text 0 cr u = if (cr = true ∧ u.head? = some LF) ∨ crlf <:+: u then none else some 0 := by
  induction u generalizing cr with
  | nil => simp [after_text, crlf]
  | cons c u ih =>
    rw [List.mem_cons, not_or] at hu
    have hc : c ≠ QUOTE := fun h => hu.1 h.symm
    rw [after_text, if_neg (by decide), if_neg hc, ih hu.2]
    simp only [List.infix_cons_iff, crlf_prefix_iff]
    by_cases hend : c = LF ∧ cr = true
    · rw [if_pos hend, if_pos (.inl ⟨hend.2, by rw [hend.1]; rfl⟩)]
    · have hno : ¬ (cr = true ∧ (c :: u).head? = some LF) := fun h => hend ⟨by simpa using h.2, h.1⟩
      rw [if_neg hend]
      simp only [hno, false_or, decide_eq_true_eq]

theorem escape_append (u v : Bytes) : escape (u ++ v) = escape u ++ escape v := List.flatMap_append

theorem not_mem_takeWhile_ne (c : Byte) (u : Bytes) : c ∉ u.takeWhile (· != c) := by
  intro h
  simpa using List.mem_takeWhile_imp h

theorem after_text_outside (value : Bytes) : after_text 0 false (escape value) = outside value := by
  have hbefore := not_mem_takeWhile_ne QUOTE value
  have hsplit : escape value =
      value.takeWhile (· != QUOTE) ++ escape (value.dropWhile (· != QUOTE)) := by
    have h := escape_append (value.takeWhile (· != QUOTE)) (value.dropWhile (· != QUOTE))
    rw [List.takeWhile_append_dropWhile, escape_plain hbefore] at h
    exact h
  have hfirst := after_text_unquoted hbefore false
  simp only [Bool.false_eq_true, false_and, false_or] at hfirst
  rw [hsplit]
  unfold outside
  cases hrest : value.dropWhile (· != QUOTE) with
  | nil =>
    rw [show escape [] = [] from rfl, List.append_nil, hfirst]
  | cons c rest =>
    have hc : c = QUOTE := by
      have h := List.head?_dropWhile_not (· != QUOTE) value
      rw [hrest] at h
      simpa using h
    have hopen : after_text 0 false (escape (c :: rest)) = some (inside 1 rest) := by
      rw [escape_cons, if_pos hc, hc]
      exact after_text_inside (by decide) rest false
    have hhead : (escape (c :: rest)).head? ≠ some LF := by
      rw [escape_cons, if_pos hc]
      exact fun h => absurd (Option.some.inj h) (by decide)
    rw [after_text_append hhead, hfirst]
    split_ifs
    · rfl
    · exact hopen

theorem after_text_escape (in_quote : Nat) (value : Bytes) :
    after_text in_quote false (escape value) = after_value in_quote value := by
  unfold after_value
  split_ifs with hin
  · rw [hin]
    exact after_text_outside value
  · exact after_text_inside hin value false

/-! ### The metadata -/

theorem takeWhile_append_of_all {u v : Bytes} (hu : 0 ∉ u) :
    (u ++ v).takeWhile (· != 0) = u ++ v.takeWhile (· != 0) := by
  apply List.takeWhile_append_of_pos
  intro b hb
  rw [bne_iff_ne]
  rintro rfl
  exact hu hb

theorem takeWhile_escape {value : Bytes} (h0 : 0 ∈ value) (rest : Bytes) :
    (escape value ++ rest).takeWhile (· != 0) = escape (value.takeWhile (· != 0)) := by
  induction value with
  | nil => exact absurd h0 (by simp)
  | cons c value ih =>
    rw [escape_cons]
    by_cases hc : c = 0
    · subst hc
      rfl
    · have hin : 0 ∈ value := by
        rcases List.mem_cons.mp h0 with h | h
        · exact absurd h.symm hc
        · exact h
      have hkeep : (c != 0) = true := by simpa using hc
      have hplain : 0 ∉ (if c = QUOTE then [BACKSLASH, c] else [c]) := by
        split_ifs <;> simp [BACKSLASH, eq_comm, hc]
      rw [List.append_assoc, takeWhile_append_of_all hplain, ih hin, List.takeWhile_cons,
        if_pos hkeep, escape_cons]

theorem written_head (ps : List Pair) : (written ps).head? ≠ some LF := by
  cases ps with
  | nil => simp [written, extensions]
  | cons p ps =>
    have hsemi :
      written (p :: ps) = ch ';' :: (p.1 ++ (if p.2 = [] then [] else ch '=' :: quoted p.2) ++
        extensions ps).takeWhile (· != 0) := by
      unfold written extensions
      rw [List.flatMap_cons, extension, List.cons_append, List.cons_append, List.takeWhile_cons,
        if_pos (by decide)]
    rw [hsemi]
    exact fun h => absurd (Option.some.inj h) (by decide)

theorem after_text_front {key sep : Bytes} (h : Token key) (hsep : sep = [] ∨ sep = [ch '='])
    (in_quote : Nat) (cr : Bool) :
    after_text in_quote cr (ch ';' :: key ++ sep) = some (after_key in_quote key) := by
  have hquote : QUOTE ∉ key := fun hb => (h.plain _ hb).2.2.1 rfl
  have hLF : LF ∉ key := fun hb => (h.plain _ hb).2.2.2.2.1 rfl
  rcases hsep with rfl | rfl
  · rw [after_text_plain (by simp [hquote, show QUOTE ≠ ch ';' by decide])
      (by simp [hLF, show LF ≠ ch ';' by decide])]
    simp [after_key, show BACKSLASH ≠ ch ';' by decide]
  · rw [after_text_plain
      (by simp [hquote, show QUOTE ≠ ch ';' by decide, show QUOTE ≠ ch '=' by decide])
      (by simp [hLF, show LF ≠ ch ';' by decide, show LF ≠ ch '=' by decide])]
    simp [after_key, show BACKSLASH ≠ ch ';' by decide, show BACKSLASH ≠ ch '=' by decide]

theorem quote_head (u : Bytes) : (QUOTE :: u).head? ≠ some LF :=
  fun h => absurd (Option.some.inj h) (by decide)

theorem after_text_written {ps : List Pair} (hkeys : ∀ p ∈ ps, Token p.1) (in_quote : Nat)
    (cr : Bool) :
    after_text in_quote cr (written ps) = after_pairs in_quote ps := by
  induction ps generalizing in_quote cr with
  | nil => rfl
  | cons p ps ih =>
    have hkey : Token p.1 := hkeys p (by simp)
    have hrest := ih fun q hq => hkeys q (List.mem_cons_of_mem p hq)
    have hnul : (0 : Byte) ≠ ch ';' ∧ (0 : Byte) ≠ ch '=' ∧ (0 : Byte) ≠ QUOTE := by decide
    have hfront : 0 ∉ ch ';' :: p.1 := by simp [hkey.nulFree, hnul]
    have hfront' : 0 ∉ ch ';' :: p.1 ++ [ch '='] ++ [QUOTE] := by simp [hkey.nulFree, hnul]
    unfold after_pairs
    by_cases hempty : p.2 = []
    · have hw : written (p :: ps) = ch ';' :: p.1 ++ [] ++ written ps := by
        have hext : extensions (p :: ps) = ch ';' :: p.1 ++ extensions ps := by
          simp [extensions, extension, hempty]
        rw [written, hext, takeWhile_append_of_all hfront, List.append_nil]
        rfl
      rw [if_pos hempty, hw, after_text_append (written_head ps), after_text_front hkey (.inl rfl)]
      exact hrest _ false
    · have hext : extensions (p :: ps) =
          ch ';' :: p.1 ++ [ch '='] ++ [QUOTE] ++ (escape p.2 ++ (QUOTE :: extensions ps)) := by
        simp [extensions, extension, quoted, hempty]
      rw [if_neg hempty]
      by_cases h0 : 0 ∈ p.2
      · have hw : written (p :: ps) =
            ch ';' :: p.1 ++ [ch '='] ++ QUOTE :: escape (p.2.takeWhile (· != 0)) := by
          rw [written, hext, takeWhile_append_of_all hfront', takeWhile_escape h0]
          simp
        rw [if_pos h0, hw, after_text_append (quote_head _), after_text_front hkey (.inr rfl)]
        show after_text _ false (QUOTE :: _) = _
        rw [after_text_quote, after_text_escape]
      · have hw : written (p :: ps) =
            ch ';' :: p.1 ++ [ch '='] ++ QUOTE :: (escape p.2 ++ QUOTE :: written ps) := by
          rw [written, hext, takeWhile_append_of_all hfront',
            takeWhile_append_of_all (escape_nulFree h0), List.takeWhile_cons, if_pos (by decide)]
          simp [written]
        rw [if_neg h0, hw, after_text_append (quote_head _), after_text_front hkey (.inr rfl)]
        show after_text _ false (QUOTE :: _) = _
        rw [after_text_quote, after_text_append (quote_head _), after_text_escape]
        congr 1
        funext q
        rw [after_text_quote, hrest]

/-! ## What the search does -/

/-- The scan of `u`, behind which `w` stands, ends in `u` or goes on behind it. -/
def Scanned (s : Scan) (i : Nat) (cr : Bool) (u w : Bytes) : Prop :=
  (after_text s.in_quote cr u = none ∧
    ∃ k < u.length, (scan_loop s i (u ++ w)).offset_LF = (i + k : Nat)) ∨
  ∃ s', after_text s.in_quote cr u = some s'.in_quote ∧ s'.offset_LF = -1 ∧
    scan_loop s i (u ++ w) = scan_loop s' (i + u.length) w

theorem Scanned.next {s s' : Scan} {i : Nat} {cr cr' : Bool} {c : Byte} {u w : Bytes}
    (h : Scanned s' (i + 1) cr' u w)
    (htext : after_text s.in_quote cr (c :: u) = after_text s'.in_quote cr' u)
    (hscan : scan_loop s i (c :: u ++ w) = scan_loop s' (i + 1) (u ++ w)) :
    Scanned s i cr (c :: u) w := by
  unfold Scanned
  rw [htext, hscan]
  rcases h with ⟨hnone, k, hk, hend⟩ | ⟨s'', hsome, hLF, hgo⟩
  · refine .inl ⟨hnone, k + 1, by simpa using hk, ?_⟩
    rw [hend]
    congr 1
    omega
  · refine .inr ⟨s'', hsome, hLF, ?_⟩
    rw [hgo, List.length_cons, Nat.add_assoc, Nat.add_comm 1]

/-- The search of a text. The header ends in it, or the search goes on behind it. -/
theorem scan_loop_text (u w : Bytes) (s : Scan) (i : Nat) (cr : Bool) (hLF : s.offset_LF = -1)
    (hCR : s.offset_CR = (i : Int) - 1 ↔ cr = true) (hle : s.offset_CR < i) :
    Scanned s i cr u w := by
  induction u generalizing s i cr with
  | nil => exact .inr ⟨s, rfl, hLF, rfl⟩
  | cons c u ih =>
    have hold : s.offset_CR = ((i + 1 : Nat) : Int) - 1 ↔ false = true := by
      simp only [Bool.false_eq_true, iff_false]
      omega
    have hold' : s.offset_CR < (i + 1 : Nat) := by omega
    by_cases hin : s.in_quote = 0
    · by_cases hquote : c = QUOTE
      · refine (ih { s with in_quote := 1 } (i + 1) false hLF hold hold').next ?_ ?_
        · simp [after_text, hin, hquote]
        · simp [scan_loop, hin, hquote]
      · by_cases hsemi : c = ch ';' ∧ s.offset_extentions = -1
        · have hother : ch ';' ≠ QUOTE ∧ ch ';' ≠ LF ∧ ch ';' ≠ CR := by decide
          refine (ih { s with offset_extentions := i } (i + 1) false hLF hold hold').next ?_ ?_
          · simp [after_text, hin, hsemi.1, hother]
          · simp [scan_loop, hin, hsemi, hother]
        · by_cases hcr : c = CR
          · have hother : CR ≠ QUOTE ∧ CR ≠ LF := by decide
            have hlt : (i : Int) < ((i + 1 : Nat) : Int) := by omega
            refine (ih { s with offset_CR := i } (i + 1) true hLF (by simp) hlt).next ?_ ?_
            · simp [after_text, hin, hcr, hother]
            · rw [List.cons_append, scan_loop, if_neg (not_not.mpr hin), if_neg hquote,
                if_neg hsemi, if_pos hcr]
          · by_cases hend : c = LF ∧ s.offset_CR = (i : Int) - 1
            · refine .inl ⟨?_, 0, by simp, ?_⟩
              · rw [after_text, if_neg (not_not.mpr hin), if_neg hquote,
                  if_pos ⟨hend.1, hCR.mp hend.2⟩]
              · rw [List.cons_append, scan_loop, if_neg (not_not.mpr hin), if_neg hquote,
                  if_neg hsemi, if_neg hcr, if_pos hend]
                rfl
            · have hgo : ¬ (c = LF ∧ cr = true) := fun h => hend ⟨h.1, hCR.mpr h.2⟩
              refine (ih s (i + 1) false hLF hold hold').next ?_ ?_
              · rw [after_text, if_neg (not_not.mpr hin), if_neg hquote, if_neg hgo, hin]
                simp [hcr]
              · rw [List.cons_append, scan_loop, if_neg (not_not.mpr hin), if_neg hquote,
                  if_neg hsemi, if_neg hcr, if_neg hend]
    · refine (ih { s with in_quote := step_quote s.in_quote c } (i + 1) false hLF hold
        hold').next ?_ ?_
      · simp [after_text, hin]
      · simp [scan_loop, hin]

theorem scan_loop_LF (s : Scan) (i : Nat) (l : Bytes) :
    (scan_loop s i l).offset_LF = s.offset_LF ∨ (i : Int) ≤ (scan_loop s i l).offset_LF := by
  induction l generalizing s i with
  | nil => exact .inl rfl
  | cons c l ih =>
    have hnext (s' : Scan) (h : s'.offset_LF = s.offset_LF) :
        (scan_loop s' (i + 1) l).offset_LF = s.offset_LF ∨
        (i : Int) ≤ (scan_loop s' (i + 1) l).offset_LF := by
      rcases ih s' (i + 1) with hsame | hle
      · exact .inl (hsame.trans h)
      · right
        omega
    unfold scan_loop
    split_ifs
    · exact hnext _ rfl
    · exact hnext _ rfl
    · exact hnext _ rfl
    · exact hnext _ rfl
    · exact .inr le_rfl
    · exact hnext _ rfl

theorem scan_loop_crlf {s : Scan} (hin : s.in_quote = 0) (i : Nat) (rest : Bytes) :
    (scan_loop s i (crlf ++ rest)).offset_LF = (i + 1 : Nat) := by
  have hCR :
      scan_loop s i (crlf ++ rest) = scan_loop { s with offset_CR := i } (i + 1) (LF :: rest) := by
    show scan_loop s i (CR :: LF :: rest) = _
    rw [scan_loop, if_neg (not_not.mpr hin), if_neg (by decide),
      if_neg (fun h => absurd h.1 (by decide)), if_pos rfl]
  rw [hCR, scan_loop, if_neg (not_not.mpr hin), if_neg (by decide),
    if_neg (fun h => absurd h.1 (by decide)),
    if_neg (by decide), if_pos ⟨rfl, by push_cast; omega⟩]

theorem scan_loop_quoted_crlf {s : Scan} (hin : s.in_quote ≠ 0) (i : Nat) (rest : Bytes) :
    scan_loop s i (crlf ++ rest) = scan_loop s (i + 2) rest := by
  show scan_loop s i (CR :: LF :: rest) = _
  rw [scan_loop, if_pos hin, step_quote_plain (by decide) (by decide), scan_loop, if_pos hin,
    step_quote_plain (by decide) (by decide)]

theorem scan_loop_header {digits : Bytes} (hne : digits ≠ []) (hx : ∀ b ∈ digits, isxdigit b)
    (u rest : Bytes) (i : Nat) :
    (scan_loop {} i (digits ++ u ++ (crlf ++ rest))).offset_LF =
      (i + (digits ++ u).length + 1 : Nat) ↔
      after_text 0 false u = some 0 := by
  have hpos := List.length_pos_iff.mpr hne
  rw [List.append_assoc, scan_loop_digits hx]
  have hstart : ({} : Scan).offset_CR = ((i + digits.length : Nat) : Int) - 1 ↔ false = true := by
    simp only [Bool.false_eq_true, iff_false]
    omega
  have hsearch := scan_loop_text u (crlf ++ rest) {} (i + digits.length) false rfl hstart
    (by show (-1 : Int) < _; omega)
  rw [List.length_append]
  rcases hsearch with ⟨hnone, k, hk, hend⟩ | ⟨s', hsome, hLF, hgo⟩
  · rw [hend]
    constructor
    · intro h
      omega
    · intro h
      exact absurd (hnone.symm.trans h) (by simp)
  · change after_text 0 false u = _ at hsome
    rw [hgo, hsome, Option.some.injEq]
    by_cases hin : s'.in_quote = 0
    · simp only [hin, iff_true]
      rw [scan_loop_crlf hin]
      congr 1
      omega
    · have hquoted := scan_loop_quoted_crlf hin (i + digits.length + u.length) rest
      simp only [hin, iff_false]
      rw [hquoted]
      rcases scan_loop_LF s' (i + digits.length + u.length + 2) rest with h | h <;> omega

/-! ## Written chunks -/

/-- Values without a NUL that have a quote behind their last backslash are balanced. -/
theorem balanced_of_closed {ps : List Pair} (h : ∀ p ∈ ps, 0 ∉ p.2 ∧ inside 1 p.2 = 1) :
    Balanced ps := by
  unfold Balanced
  induction ps with
  | nil => rfl
  | cons p ps ih =>
    obtain ⟨h0, hclosed⟩ := h p (by simp)
    have hrest := ih fun q hq => h q (List.mem_cons_of_mem p hq)
    have hvalue : after_value (toggle 0) p.2 = some 1 := by
      rw [show toggle 0 = 1 from rfl, after_value, if_neg (by decide), hclosed]
    unfold after_pairs
    simp only [after_key, ne_eq, not_true, false_and, if_false, if_neg h0, hvalue]
    split_ifs
    · exact hrest
    · exact hrest

/-- **Framing.** The search for the end of the header of a written chunk stops at the CR LF of
the writer exactly when the values leave no quoted string open, or there was no memory for them. -/
theorem framing_iff {self self' : httpp_encoding_t} {ps : List Pair} {buf : Option Bytes}
    {len : Nat} {ret : Int} {chunk : Bytes} (hidle : ¬ httpp_encoding_pending self > 0)
    (hmeta : List.Forall₂ Stands self.meta_write ps) (hkeys : ∀ p ∈ ps, Token p.1)
    (hbuf : ∀ block, buf = some block → len ≤ block.length)
    (hrun : enc_chunked_write self buf len = .ok (ret, self'))
    (hchunk : self'.buf_write_encoded = some chunk) :
    ∃ header rest, header = hex (chunk_size buf len) ++ line_of self ps ∧
      chunk = header ++ (crlf ++ rest) ∧
      ∀ i, (scan_loop {} i chunk).offset_LF = (i + header.length + 1 : Nat) ↔
        self.grants .extensions 0 (extensions_room ps) = false ∨ Balanced ps := by
  obtain ⟨grants, -, -, hspec⟩ := enc_chunked_write_spec hidle (extensions_line hmeta) hbuf
  rw [hspec] at hrun
  simp only at hrun
  split_ifs at hrun
  · cases hrun
    cases hchunk
    refine ⟨_, (buf.getD []).take (chunk_size buf len) ++ if buf = none then crlf ++ crlf
      else crlf, rfl, ?_, ?_⟩
    · unfold frame
      simp only [List.append_assoc]
    · intro i
      have hscan :=
        scan_loop_header (hex_ne_nil (chunk_size buf len)) (hex_digits _) (line_of self ps)
          ((buf.getD []).take (chunk_size buf len) ++ if buf = none then crlf ++ crlf else crlf) i
      have hframe : frame (line_of self ps) buf (chunk_size buf len) =
          hex (chunk_size buf len) ++ line_of self ps ++
            (crlf ++ ((buf.getD []).take (chunk_size buf len) ++ if buf = none then crlf ++ crlf
              else crlf)) := by
        unfold frame
        simp only [List.append_assoc]
      rw [hframe, hscan]
      unfold line_of
      split_ifs with hgrant
      · rw [after_text_written hkeys]
        simp [Balanced, hgrant]
      · simp [after_text, hgrant]
  · cases hrun
    exact absurd hchunk (by simp)

/-- An encoding with some metadata queued. -/
def with_meta (ps : List Pair) : httpp_encoding_t :=
  { chunked_encoding fun _ _ _ => true with meta_write := ps.map stored }

/-- A value that is a single backslash. -/
def backslash : List Pair := [(ascii "a", [BACKSLASH])]

/-- The quote behind the backslash does not close the string for the reader. -/
theorem framing_broken :
    ¬ ∀ (self self' : httpp_encoding_t) (ps : List Pair) (buf : Option Bytes) (len : Nat)
      (ret : Int) (chunk : Bytes),
      ¬ httpp_encoding_pending self > 0 → ps ≠ [] → List.Forall₂ Stands self.meta_write ps →
      (∀ p ∈ ps, Token p.1) → (∀ block, buf = some block → len ≤ block.length) →
      enc_chunked_write self buf len = .ok (ret, self') → self'.buf_write_encoded = some chunk →
      ∀ i, (scan_loop {} i chunk).offset_LF =
        (i + (hex (chunk_size buf len) ++ line_of self ps).length + 1 : Nat) := by
  intro h
  have hkey : ∀ p ∈ backslash, Token p.1 := by
    intro p hp
    rw [backslash, List.mem_singleton] at hp
    subst hp
    exact ⟨by decide, by decide +kernel⟩
  have hend := h (with_meta backslash) _ backslash (some (ascii "x")) 1 _ _ (by decide) (by decide)
    (stored_stand fun p hp => (hkey p hp).nulFree) hkey (fun block hb =>
      by cases hb; decide) rfl rfl 0
  exact absurd hend (by decide +kernel)

/-- A value with a quote and a CR LF. -/
theorem framing_iff_song :
    ∃ self' chunk header rest,
      enc_chunked_write (with_meta song) (some (ascii "x")) 1 = .ok (1, self') ∧
      self'.buf_write_encoded = some chunk ∧
      chunk = header ++ (crlf ++ rest) ∧
      ∀ i, (scan_loop {} i chunk).offset_LF = (i + header.length + 1 : Nat) ↔
        (with_meta song).grants .extensions 0 (extensions_room song) = false ∨ Balanced song := by
  have hkeys : ∀ p ∈ song, Token p.1 := fun p hp => (song_restored p hp).key
  obtain ⟨self', hrun, chunk, hqueued⟩ : ∃ self',
    enc_chunked_write (with_meta song) (some (ascii "x")) 1 =
    .ok (1, self') ∧ ∃ chunk, self'.buf_write_encoded = some chunk := ⟨_, rfl, _, rfl⟩
  obtain ⟨header, rest, -, hchunk, hscan⟩ := framing_iff
    (show ¬ httpp_encoding_pending (with_meta song) > 0 by decide)
    (stored_stand fun p hp => (hkeys p hp).nulFree) hkeys (fun block hb =>
      by cases hb; decide) hrun hqueued
  exact ⟨self', chunk, header, rest, hrun, hqueued, hchunk, hscan⟩

end Encoding
