import IcecastCommon.Httpp.Grammar

/-!
# Responses

The status line `V SP+ C SP+ M`. The tokenizer stops at the third word, so that the message keeps
its spaces.
-/

namespace Httpp

open Lib httpp_request_type_e

/-! ## The loop over the status line -/

section Loop

variable (where_ : Nat) (resp_code : Option Nat)

theorem response_scans :
    Scans (fun n i whitespace data => response_loop 0 n i whitespace where_ resp_code data)
    fun data => .ok (data, resp_code, none) where
  stop _ _ _ := rfl
  space n A B whitespace := by
    rw [response_loop, Nat.zero_add, read_middle, ok_bind, if_pos rfl, store_middle, ok_bind]
  letter n A B c hc := by
    rw [response_loop, Nat.zero_add, read_middle, ok_bind, if_neg hc]
    rfl

theorem response_start (A B : Bytes) {c : Byte} (hc : c ≠ ch ' ') (n : Nat) :
    response_loop 0 (n + 1) A.length true where_ resp_code (A ++ c :: B) =
      match where_ + 1 with
      | 1 => response_loop 0 (n + 1) A.length false 1 (some A.length) (A ++ c :: B)
      | _ => .ok (A ++ c :: B, resp_code, some A.length) := by
  have hfalse (k : Nat) (p : Option Nat) :
    response_loop 0 (n + 1) A.length false k p (A ++ c :: B) =
      response_loop 0 n (A.length + 1) false k p (A ++ c :: B) :=
      (response_scans k p).letter n A B c hc
  simp only [hfalse]
  rw [response_loop, Nat.zero_add, read_middle, ok_bind, if_neg hc, if_pos rfl]
  rfl

theorem response_next (l E A : Bytes) (h : after_word l ≠ []) {A' : Bytes}
    (hA' : A' = A ++ blank (l.take (next_start l))) :
    response_loop 0 l.length A.length false where_ resp_code (A ++ (l ++ E)) =
      match where_ + 1 with
      | 1 => response_loop 0 (after_word l).length A'.length false 1 (some A'.length)
          (A' ++ (after_word l ++ E))
      | _ => .ok (A' ++ (after_word l ++ E), resp_code, some A'.length) := by
  obtain ⟨c, B, hB⟩ := List.exists_cons_of_ne_nil h
  have hlen : A.length + next_start l = A'.length := by
    rw [hA', next_start_length]
  rw [(response_scans where_ resp_code).step, if_neg h, hlen, ← hA', hB, List.length_cons,
    List.cons_append]
  exact response_start where_ resp_code A' (B ++ E) (after_word_head hB) B.length

end Loop

/-- The block where the spaces in front of the code and of the message have been overwritten. -/
def responded (B rest : Bytes) : Bytes :=
  blank (B.take (next_start B)) ++ (blank ((after_word B).take (next_start (after_word B))) ++
    (after_word (after_word B) ++ rest))

/-- The code starts at the second word of what is searched, and the message at the third one. -/
theorem response_loop_spec (B E : Bytes) :
    ∃ data resp_code message, response_loop 0 B.length 0 false 0 none (B ++ E) =
      .ok (data, resp_code, message) ∧
      if after_word (after_word B) = [] then message = none
      else resp_code = some (next_start B) ∧
      message = some (next_start B + next_start (after_word B)) ∧
        data = responded B E := by
  have hfirst := (response_scans 0 none).step B E []
  rw [List.length_nil, List.nil_append, List.nil_append] at hfirst
  by_cases hC : after_word B = []
  · have hM : after_word (after_word B) = [] := by rw [hC]; rfl
    refine ⟨_, _, _, hfirst.trans (if_pos hC), ?_⟩
    rw [if_pos hM]
  have hsecond := response_next 0 none B E [] hC rfl
  have hA := next_start_length [] B
  rw [List.length_nil, List.nil_append, Nat.zero_add] at hA
  rw [List.length_nil, List.nil_append, List.nil_append] at hsecond
  by_cases hM : after_word (after_word B) = []
  · refine ⟨_, _, _,
      hsecond.trans (((response_scans 1 _).step (after_word B) E _).trans (if_pos hM)), ?_⟩
    rw [if_pos hM]
  · refine ⟨_, _, _, hsecond.trans (response_next 1 _ (after_word B) E _ hM rfl), ?_⟩
    rw [if_neg hM, next_start_length, hA]
    exact ⟨rfl, rfl, List.append_assoc _ _ _⟩

/-! ## The strings of a response -/

/-- The code and the message of a line, where spaces are searched in the first `s` bytes. -/
def status_words (s : Nat) (L : CString) : Option (CString × CString) :=
  let C := after_word (L.bytes.take s)
  let M := after_word C
  if M = [] then none else some (CString.cut (word C), CString.cut (M ++ L.bytes.drop s))

theorem none_nulFree : 0 ∉ ascii "NONE" := by decide

/-- The variables of the status line, in the order in which they are set. -/
def status_vars (code message uri : CString) : List (CString × CString) :=
  [(HTTPP_VAR_ERROR_CODE, code)] ++
    (if atoi code.bytes < 200 ∨ atoi code.bytes ≥ 300 then
      [(HTTPP_VAR_ERROR_MESSAGE, message)] else []) ++
    [(HTTPP_VAR_URI, uri), (HTTPP_VAR_REQ_TYPE, ⟨ascii "NONE", none_nulFree⟩)]

/-- `set_message` on the strings. -/
def keep_message (parser : http_parser_t) (code message : CString) : C http_parser_t :=
  if atoi code.bytes < 200 ∨ atoi code.bytes ≥ 300 then
    httpp_setvar parser (some HTTPP_VAR_ERROR_MESSAGE) (some message)
  else return parser

/-- `httpp_parse_response` on the strings, from the first variable on. -/
def respond (parser : http_parser_t) (code message uri : CString) (headers : List CString) :
    C (Int × http_parser_t) := do
  let parser ← httpp_setvar parser (some HTTPP_VAR_ERROR_CODE) (some code)
  let parser ← keep_message parser code message
  let parser ← httpp_setvar parser (some HTTPP_VAR_URI) (some uri)
  let parser ← httpp_setvar parser (some HTTPP_VAR_REQ_TYPE) (some ⟨ascii "NONE", none_nulFree⟩)
  return (1, ← headers.foldlM store_header parser)

section Kept

variable {parser : http_parser_t} {changes : List (CString × Option CString)}

theorem Kept.keep_message (h : Kept parser changes) (code message : CString) :
    ∃ vars, keep_message parser code message = .ok { parser with vars } ∧
      Kept { parser with vars } (changes ++ settings
        (if atoi code.bytes < 200 ∨ atoi code.bytes ≥ 300 then [(HTTPP_VAR_ERROR_MESSAGE, message)]
        else [])) := by
  unfold Httpp.keep_message
  split_ifs with hrange
  · exact h.set HTTPP_VAR_ERROR_MESSAGE message
  · refine ⟨parser.vars, rfl, ?_⟩
    show Kept parser (changes ++ [])
    rw [List.append_nil]
    exact h

theorem Kept.respond (h : Kept parser changes) (code message uri : CString) (ts : List CString) :
    ∃ vars, respond parser code message uri ts = .ok (1, { parser with vars }) ∧
      Kept { parser with vars }
        (changes ++ settings (status_vars code message uri ++ header_vars ts)) := by
  obtain ⟨vars1, hcode, h1⟩ := h.set HTTPP_VAR_ERROR_CODE code
  obtain ⟨vars2, hmessage, h2⟩ := h1.keep_message code message
  obtain ⟨vars3, huri, h3⟩ := h2.set HTTPP_VAR_URI uri
  obtain ⟨vars4, htype, h4⟩ := h3.set HTTPP_VAR_REQ_TYPE ⟨ascii "NONE", none_nulFree⟩
  obtain ⟨vars, hheaders, h5⟩ := h4.store_headers ts
  refine ⟨vars, ?_, ?_⟩
  · unfold Httpp.respond
    rw [hcode, ok_bind, hmessage, ok_bind, huri, ok_bind, htype, ok_bind, hheaders]
    rfl
  · have hlast :
      settings [(HTTPP_VAR_URI, uri), (HTTPP_VAR_REQ_TYPE, ⟨ascii "NONE", none_nulFree⟩)] =
        settings [(HTTPP_VAR_URI, uri)] ++
          settings [(HTTPP_VAR_REQ_TYPE, ⟨ascii "NONE", none_nulFree⟩)] := rfl
    simp only [status_vars, settings_append, hlast, ← List.append_assoc]
    exact h5

theorem words_nulFree {B R : Bytes} (h : 0 ∉ B ++ R) :
    0 ∉ word (after_word B) ∧ 0 ∉ after_word (after_word B) ++ R := by
  have hC := after_word_sublist B
  have hM := after_word_sublist (after_word B)
  exact ⟨fun hmem => h (List.mem_append_left _ (hC.mem ((List.takeWhile_sublist _).mem hmem))),
    fun hmem => h (((hM.trans hC).append_right R).mem hmem)⟩

theorem response_texts {B R : Bytes} (rest : Bytes) (hnul : 0 ∉ B ++ R)
    (hM : after_word (after_word B) ≠ []) :
    string_at (responded B (R ++ 0 :: rest)) (next_start B) =
      .ok (CString.cut (word (after_word B))) ∧
    string_at (responded B (R ++ 0 :: rest)) (next_start B + next_start (after_word B)) =
      .ok (CString.cut (after_word (after_word B) ++ R)) ∧
    ∀ q ≥ B.length + R.length + 1, (responded B (R ++ 0 :: rest)).drop q =
      (B ++ (R ++ 0 :: rest)).drop q := by
  obtain ⟨n, htake, -, -, hspace⟩ := take_next_start (after_word B)
  obtain ⟨m, rfl⟩ : ∃ m, n = m + 1 := ⟨n - 1, by have := hspace.mp (space_of_after_word hM); omega⟩
  have hstart := next_start_add B
  have hstart2 := next_start_add (after_word B)
  have hfront (l : Bytes) : (blank (l.take (next_start l))).length = next_start l := by
    have := next_start_length [] l
    rw [List.nil_append, List.length_nil, Nat.zero_add] at this
    exact this
  have hdrop : (responded B (R ++ 0 :: rest)).drop (next_start B) =
      blank ((after_word B).take (next_start (after_word B))) ++
        (after_word (after_word B) ++ (R ++ 0 :: rest)) :=
    List.drop_left' (hfront B)
  have hdrop2 : (responded B (R ++ 0 :: rest)).drop (next_start B + next_start (after_word B)) =
      after_word (after_word B) ++ (R ++ 0 :: rest) := by
    rw [← List.drop_drop, hdrop]
    exact List.drop_left' (hfront (after_word B))
  obtain ⟨hnulC, hnulM⟩ := words_nulFree hnul
  refine ⟨?_, ?_, fun q hq => ?_⟩
  · apply string_at_eq
    rw [hdrop, htake, blank_append, blank_of_not_mem (not_mem_word _), blank_spaces,
      CString.bytes_cut hnulC, List.replicate_succ, List.append_assoc]
    rfl
  · apply string_at_eq
    rw [hdrop2, CString.bytes_cut hnulM, List.append_assoc]
  · have hbehind (u : Bytes) (hu : u.length = B.length) :
        (u ++ (R ++ 0 :: rest)).drop q = (R ++ 0 :: rest).drop (q - B.length) := by
      rw [List.drop_append, List.drop_of_length_le (by omega), List.nil_append, hu]
    rw [hbehind B rfl, responded, ← List.append_assoc, ← List.append_assoc, hbehind]
    rw [List.length_append, List.length_append, hfront, hfront]
    omega

/-- **Responses.** A parse looks at nothing but the lines. -/
theorem Kept.parse_response (h : Kept parser changes) (d : Bytes) (uri : CString) :
    (status_words (seen (first_line d)) (first_line d) = none ∧
      httpp_parse_response parser (some d) d.length (some uri) = .ok (0, parser)) ∨
    ∃ code message vars, status_words (seen (first_line d)) (first_line d) = some (code, message) ∧
      httpp_parse_response parser (some d) d.length (some uri) = .ok (1, { parser with vars }) ∧
      Kept { parser with vars }
        (changes ++ settings (status_vars code message uri ++ header_vars (header_lines d))) := by
  obtain ⟨data, line, rest, hsplit, hget, hslen, htext, hlined⟩ := split_first d
  have hslice : slice d 0 d.length = .ok d := by rw [slice_front (Nat.le_refl _), List.take_length]
  have hB := seen_length (first_line d)
  have hBR := List.take_append_drop (seen (first_line d)) (first_line d).bytes
  unfold seen at *
  generalize int_of_size (first_line d).bytes.length = slen at *
  unfold httpp_parse_response status_words
  simp only [hslice, ok_bind, hsplit, hget]
  rw [hslen, ok_bind]
  generalize (first_line d).bytes.take slen.toNat = B at *
  generalize (first_line d).bytes.drop slen.toNat = R at *
  obtain ⟨data1, resp_code, message, hloop, hwords⟩ := response_loop_spec B (R ++ 0 :: rest)
  rw [htext, ← hB, hloop, ok_bind]
  by_cases hM : after_word (after_word B) = []
  · rw [if_pos hM] at hwords
    left
    refine ⟨if_pos hM, ?_⟩
    rw [hwords]
    cases resp_code <;> rfl
  right
  rw [if_neg hM] at hwords
  obtain ⟨rfl, rfl, rfl⟩ := hwords
  have hnul : 0 ∉ B ++ R := hBR ▸ (first_line d).nulFree
  have hlen : (first_line d).bytes.length = B.length + R.length := by rw [← hBR, List.length_append]
  obtain ⟨hcode, hmessage, hrest⟩ := response_texts rest hnul hM
  have hsame : ∀ q ≥ (first_line d).bytes.length + 1,
      (responded B (R ++ 0 :: rest)).drop q = data.drop q := by
    intro q hq
    rw [htext]
    exact hrest q (by omega)
  have hheaders (parser : http_parser_t) := parse_headers_spec hlined hsame parser
  obtain ⟨vars, hrun, h'⟩ := h.respond (CString.cut (word (after_word B)))
    (CString.cut (after_word (after_word B) ++ R)) uri (header_lines d)
  refine ⟨_, _, vars, if_neg hM, ?_, h'⟩
  rw [← hrun]
  unfold Httpp.respond set_message Httpp.keep_message
  simp only [hcode, ok_bind, hmessage, hheaders]

end Kept

/-! ## The form -/

/-- `V SP+ C SP+ M` -/
structure StatusForm (L V C M : CString) : Prop where
  line : ∃ a b, L.bytes = V.bytes ++ (spaces (a + 1) ++ (C.bytes ++ (spaces (b + 1) ++ M.bytes)))
  version : ch ' ' ∉ V.bytes
  code : Solid C.bytes
  message : ∃ c rest, M.bytes = c :: rest ∧ c ≠ ch ' '

/-- Where the message starts. -/
def message_start (L M : CString) : Nat := L.bytes.length - M.bytes.length

theorem head_ne {m : Bytes} (h : ∃ c rest, m = c :: rest ∧ c ≠ ch ' ') :
    ∀ c B, m = c :: B → c ≠ ch ' ' := by
  obtain ⟨c, rest, rfl, hc⟩ := h
  intro b B hb
  rw [← (List.cons.inj hb).1]
  exact hc

theorem status_words_form {s : Nat} {L C M : CString} (h : status_words s L = some (C, M)) :
    ∃ V, StatusForm L V C M ∧ message_start L M < s := by
  have hBR := List.take_append_drop s L.bytes
  have hs : (L.bytes.take s).length ≤ s := List.length_take_le s L.bytes
  unfold status_words at h
  unfold message_start
  generalize L.bytes.take s = B at *
  generalize L.bytes.drop s = R at *
  have hnul : 0 ∉ B ++ R := hBR ▸ L.nulFree
  dsimp only at h
  split_ifs at h with hM
  obtain ⟨rfl, rfl⟩ := Prod.mk.inj (Option.some.inj h)
  have hC : after_word B ≠ [] := by
    intro hC
    rw [hC] at hM
    exact hM rfl
  have hsub := (after_word_sublist (after_word B)).trans (after_word_sublist B)
  obtain ⟨hnulC, hnulM⟩ := words_nulFree hnul
  have hnulV : 0 ∉ word B :=
    fun h => hnul (List.mem_append_left _ ((List.takeWhile_sublist _).mem h))
  obtain ⟨n, hB, hn⟩ := word_split B
  obtain ⟨m, hsplit, hm⟩ := word_split (after_word B)
  obtain ⟨a, rfl⟩ : ∃ a, n = a + 1 := ⟨n - 1, by have := hn.mp (space_of_after_word hC); omega⟩
  obtain ⟨b, rfl⟩ : ∃ b, m = b + 1 := ⟨m - 1, by have := hm.mp (space_of_after_word hM); omega⟩
  obtain ⟨c, M', hM'⟩ := List.exists_cons_of_ne_nil hM
  refine ⟨⟨word B, hnulV⟩, ⟨⟨a, b, ?_⟩, not_mem_word B, ?_, ?_⟩, ?_⟩
  · rw [CString.bytes_cut hnulC, CString.bytes_cut hnulM, ← hBR]
    conv_lhs => rw [hB, hsplit]
    simp only [spaces, List.append_assoc]
  · rw [CString.bytes_cut hnulC]
    exact solid_word hC fun c B => after_word_head
  · rw [CString.bytes_cut hnulM]
    exact ⟨c, M' ++ R, by rw [hM', List.cons_append], after_word_head hM'⟩
  · rw [CString.bytes_cut hnulM, ← hBR, List.length_append, List.length_append]
    have hpos := List.length_pos_iff.mpr hM
    have hle := hsub.length_le
    omega

theorem StatusForm.words {s : Nat} {L V C M : CString} (h : StatusForm L V C M)
    (hs : message_start L M < s) :
    status_words s L = some (C, M) := by
  obtain ⟨a, b, hL⟩ := h.line
  obtain ⟨c, rest, hM, hc⟩ := h.message
  unfold message_start at hs
  have hfront :
      L.bytes = (V.bytes ++ (spaces (a + 1) ++ (C.bytes ++ spaces (b + 1)))) ++ M.bytes := by
    rw [hL]
    simp
  have hlen := congrArg List.length hfront
  rw [List.length_append] at hlen
  obtain ⟨k, hk⟩ : ∃ k, s - (V.bytes ++ (spaces (a + 1) ++ (C.bytes ++ spaces (b + 1)))).length =
      k + 1 :=
    ⟨s - (V.bytes ++ (spaces (a + 1) ++ (C.bytes ++ spaces (b + 1)))).length - 1, by omega⟩
  have htake :
      L.bytes.take s =
      V.bytes ++ (spaces (a + 1) ++ (C.bytes ++ (spaces (b + 1) ++ M.bytes.take (k + 1)))) := by
    rw [hfront, List.take_append, List.take_of_length_le (by omega), hk]
    simp
  have hdrop : L.bytes.drop s = M.bytes.drop (k + 1) := by
    rw [hfront, List.drop_append, List.drop_of_length_le (by omega), hk, List.nil_append]
  have hmessage : M.bytes.take (k + 1) = c :: rest.take k := by rw [hM, List.take_succ_cons]
  have hC : after_word (L.bytes.take s) = C.bytes ++ (spaces (b + 1) ++ M.bytes.take (k + 1)) := by
    rw [htake]
    exact after_word_append h.version a fun c B => h.code.head
  have hM' : after_word (after_word (L.bytes.take s)) = M.bytes.take (k + 1) := by
    rw [hC]
    exact after_word_append h.code.2 b (head_ne ⟨c, _, hmessage, hc⟩)
  unfold status_words
  dsimp only
  rw [hM', if_neg (by simp [hmessage]), hC, word_append h.code.2, hdrop, List.take_append_drop,
    CString.cut_bytes, CString.cut_bytes]

theorem StatusForm.unique {L V V' C C' M M' : CString} (h : StatusForm L V C M)
    (h' : StatusForm L V' C' M') :
    C = C' ∧ M = M' := by
  have hstart (M : CString) : message_start L M < L.bytes.length + 1 :=
    Nat.lt_succ_of_le (Nat.sub_le _ _)
  have hsame := (h.words (hstart M)).symm.trans (h'.words (hstart M'))
  exact Prod.mk.inj (Option.some.inj hsame)

/-! ## Facts about the response -/

/-- What the variables say about the status line. -/
structure StatusFacts (parser : http_parser_t) (C M uri : CString) : Prop where
  code : httpp_getvar parser (some HTTPP_VAR_ERROR_CODE) = .ok (some C)
  message : httpp_getvar parser (some HTTPP_VAR_ERROR_MESSAGE) =
    .ok (if atoi C.bytes < 200 ∨ atoi C.bytes ≥ 300 then some M else none)
  uri : httpp_getvar parser (some HTTPP_VAR_URI) = .ok (some uri)
  req_type : httpp_getvar parser (some HTTPP_VAR_REQ_TYPE) = .ok (some ⟨ascii "NONE", none_nulFree⟩)

theorem Kept.status_facts {parser : http_parser_t} {d : Bytes} {C M uri : CString}
    (h : Kept parser (settings (status_vars C M uri ++ header_vars (header_lines d))))
    (hplain : Plain_headers d) :
    StatusFacts parser C M uri := by
  have hvalue : ∀ n, Internal n →
      httpp_getvar parser (some n) = .ok (last_value (status_vars C M uri) n) := by
    intro n hn
    rw [h.getvar, last_change_settings, last_value_append]
    have hnone : last_value (header_vars (header_lines d)) n = none := hplain.last_header hn
    rw [hnone, Option.none_or]
  constructor
  · rw [hvalue _ (by decide)]
    unfold status_vars
    split_ifs
    · rfl
    · rfl
  · rw [hvalue _ (by decide)]
    unfold status_vars
    split_ifs
    · rfl
    · rfl
  · rw [hvalue _ (by decide)]
    unfold status_vars
    rw [last_value_append]
    rfl
  · rw [hvalue _ (by decide)]
    unfold status_vars
    rw [last_value_append]
    rfl

/-- The parse of a response follows the form. -/
def Follows (vars queryvars postvars : Pool) (d : Bytes) (uri : CString) : Prop :=
  ∃ parser0 ret parser, httpp_create vars queryvars postvars = .ok parser0 ∧
    httpp_parse_response parser0 (some d) d.length (some uri) = .ok (ret, parser) ∧
    (ret = 1 ∨ ret = 0 ∧ parser = parser0) ∧
    (ret = 1 ↔ ∃ V C M, StatusForm (first_line d) V C M) ∧
    (ret = 1 → Plain_headers d → ∀ V C M, StatusForm (first_line d) V C M →
      StatusFacts parser C M uri)

/-- **The status line.** A line of the form counts when its message starts in the bytes that are
searched. -/
theorem status_line_iff (vars queryvars postvars : Pool) (d : Bytes) (uri : CString) :
    Follows vars queryvars postvars d uri ↔
      ∀ V C M, StatusForm (first_line d) V C M →
      message_start (first_line d) M < seen (first_line d) := by
  obtain ⟨parser0, hnew, -, hempty, -⟩ := create_parser_spec vars queryvars postvars
  have hkept : Kept parser0 [] := hempty
  rcases hkept.parse_response d uri with ⟨hnone, hrun⟩ | ⟨C, M, vars', hsome, hrun, hkept'⟩
  · constructor
    · rintro ⟨parser1, ret, parser, hnew', hrun', -, hreturn, -⟩ V C M hform
      rw [hnew] at hnew'
      cases hnew'
      rw [hrun] at hrun'
      cases hrun'
      exact absurd (hreturn.mpr ⟨V, C, M, hform⟩) (by decide)
    · intro hstart
      refine ⟨parser0, 0, parser0, hnew, hrun, .inr ⟨rfl, rfl⟩, iff_of_false (by decide) ?_,
        fun h => absurd h (by decide)⟩
      rintro ⟨V, C, M, hform⟩
      rw [hform.words (hstart V C M hform)] at hnone
      cases hnone
  · obtain ⟨V, hform, hstart⟩ := status_words_form hsome
    rw [List.nil_append] at hkept'
    refine iff_of_true ⟨parser0, 1, _, hnew, hrun, .inl rfl,
      iff_of_true rfl ⟨V, C, M, hform⟩, ?_⟩ ?_
    · intro _ hplain V' C' M' hform'
      obtain ⟨rfl, rfl⟩ := hform.unique hform'
      exact hkept'.status_facts hplain
    · intro V' C' M' hform'
      rw [← (hform.unique hform').2]
      exact hstart

/-! ## A long line -/

theorem spaced_line_status (n : Nat) :
    StatusForm (spaced_line (n + 1)) get slash ⟨ascii "HTTP/1.0", by decide⟩ where
  line := ⟨n, 0, rfl⟩
  version := by decide
  code := ⟨by decide, by decide⟩
  message := ⟨ch 'H', ascii "TTP/1.0", rfl, by decide⟩

/-- A status line of 2^31 bytes and more. -/
theorem status_line_long :
    ¬ ∀ (vars queryvars postvars : Pool) (d : Bytes) (uri : CString),
      Follows vars queryvars postvars d uri := by
  intro h
  obtain ⟨m, hlong, hm⟩ : ∃ m, 2 ^ 31 ≤ m + 1 + 13 ∧ m + 1 + 13 < 2 ^ 32 :=
    ⟨2 ^ 31 - 1, by omega, by omega⟩
  have hstart :=
    (status_line_iff _ _ _ _ _).mp (h ⟨id, id⟩ ⟨id, id⟩ ⟨id, id⟩ (spaced_line (m + 1)).bytes slash)
  rw [spaced_line_first, spaced_line_seen hlong hm] at hstart
  exact Nat.not_lt_zero _ (hstart _ _ _ (spaced_line_status m))

end Httpp
