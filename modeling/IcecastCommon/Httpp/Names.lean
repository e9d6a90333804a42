import IcecastCommon.Httpp.Parsed

/-!
# The names of variables

Headers and the variables of the request line share one tree. Names with two underscores in front
are meant for the request line.
-/

namespace Httpp

open Lib

/-- The names of the variables that are not headers. -/
def Internal (n : CString) : Prop := ascii "__" <+: n.bytes

instance (n : CString) : Decidable (Internal n) := inferInstanceAs (Decidable (_ <+: _))

/-! ## The last value -/

/-- The value that the last variable of that name got. -/
def last_value (vars : List (CString × CString)) (n : CString) : Option CString :=
  (vars.reverse.find? fun v => v.1 = n).map (·.2)

theorem last_change_settings (vars : List (CString × CString)) (n : CString) :
    last_change (settings vars) n = last_value vars n := by
  unfold last_change settings last_value
  rw [← List.map_reverse, List.find?_map, Option.bind_map, Option.map_eq_bind]
  rfl

theorem last_value_append (l l' : List (CString × CString)) (n : CString) :
    last_value (l ++ l') n = (last_value l' n).or (last_value l n) := by
  unfold last_value
  rw [List.reverse_append, List.find?_append, Option.map_or]

theorem last_value_eq_none {vars : List (CString × CString)} {n : CString}
    (h : ∀ v ∈ vars, v.1 ≠ n) :
    last_value vars n = none := by
  unfold last_value
  rw [Option.map_eq_none_iff, List.find?_eq_none]
  intro v hv
  simpa using h v (List.mem_reverse.mp hv)

theorem request_vars_internal (r : Request) : ∀ v ∈ r.vars, Internal v.1 := by
  have hnames :
    ∀ v ∈ r.vars,
    v.1 ∈ [HTTPP_VAR_RAWURI, HTTPP_VAR_QUERYARGS, HTTPP_VAR_PROTOCOL, HTTPP_VAR_VERSION,
      HTTPP_VAR_REQ_TYPE, HTTPP_VAR_URI] := by
    intro v hv
    unfold Request.vars query_vars at hv
    split_ifs at hv
    · simp only [List.cons_append, List.nil_append, List.mem_cons, List.not_mem_nil, or_false] at hv
      rcases hv with rfl | rfl | rfl | rfl | rfl | rfl <;> simp
    · simp only [List.cons_append, List.nil_append, List.mem_cons, List.not_mem_nil, or_false] at hv
      rcases hv with rfl | rfl | rfl | rfl <;> simp
  intro v hv
  have hall : ∀ n ∈ [HTTPP_VAR_RAWURI, HTTPP_VAR_QUERYARGS, HTTPP_VAR_PROTOCOL, HTTPP_VAR_VERSION,
      HTTPP_VAR_REQ_TYPE, HTTPP_VAR_URI], Internal n := by decide
  exact hall v.1 (hnames v hv)

/-! ## Headers by name -/

/-- The value of the last header line with that name. -/
def last_header (ts : List CString) (n : CString) : Option CString :=
  last_value (ts.filterMap header) n

section Accepted

variable {vars queryvars postvars : Pool} {d : Bytes} {parser : http_parser_t}

/-- The request line behind a parse that returned 1. -/
theorem accepted (h : parse_fresh vars queryvars postvars d = .ok (1, parser)) :
    ∃ r, request_read d = some r ∧ parser.req_type = r.req_type ∧ parser.uri = some r.path ∧
      ∀ n, httpp_getvar parser (some n) =
      .ok ((last_header ((header_lines d).filter fits) n).or (last_value r.vars n)) := by
  rcases parse_fresh_spec vars queryvars postvars d
    with ⟨r, parser', hr, hrun, htype, huri, hkept⟩ | ⟨-, parser', hrun⟩
  · rw [h] at hrun
    obtain rfl : parser = parser' := (Prod.mk.inj (Except.ok.inj hrun)).2
    refine ⟨r, hr, htype, huri, ?_⟩
    intro n
    rw [hkept.getvar, last_change_settings, last_value_append]
    rfl
  · rw [h] at hrun
    exact absurd (Prod.mk.inj (Except.ok.inj hrun)).1 (by decide)

theorem accepts (vars queryvars postvars : Pool) (hr : (request_read d).isSome) :
    ∃ parser, parse_fresh vars queryvars postvars d = .ok (1, parser) := by
  rcases parse_fresh_spec vars queryvars postvars d with ⟨r, parser, -, hrun, -⟩ | ⟨hnone, -⟩
  · exact ⟨parser, hrun⟩
  · rw [hnone] at hr
    cases hr

theorem header_read (h : parse_fresh vars queryvars postvars d = .ok (1, parser)) (n : CString)
    (hn : ¬ Internal n) :
    httpp_getvar parser (some n) = .ok (last_header ((header_lines d).filter fits) n) := by
  obtain ⟨r, -, -, -, hget⟩ := accepted h
  have hnone : last_value r.vars n = none := by
    apply last_value_eq_none
    rintro v hv rfl
    exact hn (request_vars_internal r v hv)
  rw [hget, hnone, Option.or_none]

/-- **Headers.** The last line with a name counts, as long as its value starts in the length that
fits into an `int`. -/
theorem headers_iff (h : parse_fresh vars queryvars postvars d = .ok (1, parser)) :
    (∀ n, ¬ Internal n → httpp_getvar parser (some n) = .ok (last_header (header_lines d) n)) ↔
      ∀ n, ¬ Internal n →
      last_header ((header_lines d).filter fits) n = last_header (header_lines d) n := by
  have hheader := header_read h
  apply forall_congr'
  intro n
  apply imp_congr_right
  intro hn
  rw [hheader n hn]
  constructor
  · exact Except.ok.inj
  · intro heq
    rw [heq]

end Accepted

/-- A header twice and a line without a colon, with lines that end in CR LF. -/
def repeated_headers : Bytes := ascii "GET / HTTP/1.0\r\nHost: a\r\nno colon\r\nhost: b\r\n\r\n"

theorem headers_iff_repeated :
    ∃ parser, parse_fresh ⟨id, id⟩ ⟨id, id⟩ ⟨id, id⟩ repeated_headers = .ok (1, parser) ∧
    ((∀ n, ¬ Internal n →
      httpp_getvar parser (some n) = .ok (last_header (header_lines repeated_headers) n)) ↔
      ∀ n, ¬ Internal n → last_header ((header_lines repeated_headers).filter fits) n =
        last_header (header_lines repeated_headers) n) := by
  have hline : (request_read repeated_headers).isSome := by decide +kernel
  obtain ⟨parser, hrun⟩ := accepts ⟨id, id⟩ ⟨id, id⟩ ⟨id, id⟩ hline
  exact ⟨parser, hrun, headers_iff hrun⟩

theorem int_of_size_neg {n : Nat} (h : 2 ^ 31 ≤ n) (hn : n < 2 ^ 32) : int_of_size n < 0 := by
  rw [int_of_size_mod, Nat.mod_eq_of_lt hn, if_neg (Nat.not_lt.mpr h)]
  omega

theorem fits_of_short {t : CString} (ht : t.bytes.length < 2 ^ 31)
    (hvalue : header_value t.bytes ≠ []) : fits t = true := by
  have hpos := List.length_pos_iff.mpr hvalue
  have hle := (value_sublist t.bytes).length_le
  rw [fits_iff, int_of_size_of_lt ht]
  omega

/-- A request line. -/
def get_root : CString := ⟨ascii "GET / HTTP/1.0", by decide⟩

/-- A header with a long value. -/
def long_text (n : Nat) : Bytes := ascii "a:" ++ List.replicate n (ch 'b')

theorem not_mem_long_text {c : Byte} (hc : c ∉ ascii "a:b") (n : Nat) : c ∉ long_text n := by
  have hsplit : ascii "a:b" = ascii "a:" ++ [ch 'b'] := by decide
  rw [hsplit, List.mem_append, not_or, List.mem_singleton] at hc
  intro h
  rcases List.mem_append.mp h with h | h
  · exact hc.1 h
  · exact hc.2 (List.eq_of_mem_replicate h)

def long_line (n : Nat) : CString := ⟨long_text n, not_mem_long_text (by decide) n⟩

def long_request (n : Nat) : Bytes := get_root.bytes ++ LF :: ((long_line n).bytes ++ LF :: [])

theorem get_root_clean : CR ∉ get_root.bytes ∧ LF ∉ get_root.bytes := by decide

theorem long_line_clean (n : Nat) : CR ∉ (long_line n).bytes ∧ LF ∉ (long_line n).bytes :=
  ⟨not_mem_long_text (by decide) n, not_mem_long_text (by decide) n⟩

theorem long_request_headers (n : Nat) : header_lines (long_request n) = [long_line n] := by
  have hlines : lf_lines MAX_HEADERS (long_request n) = [get_root.bytes, (long_line n).bytes] := by
    unfold long_request MAX_HEADERS
    rw [lf_lines_append get_root_clean.2, lf_lines_append (long_line_clean n).2]
    rfl
  unfold header_lines
  rw [hlines, List.tail_cons, List.map_singleton, cut_clean (long_line_clean n)]

theorem long_header_value (n : Nat) :
    header_value (long_line n).bytes = List.replicate n (ch 'b') := by
  unfold header_value
  cases n <;> rfl

theorem long_line_not_fits {n : Nat} (h : 2 ^ 31 ≤ n + 2) (hn : n + 2 < 2 ^ 32) :
    fits (long_line n) = false := by
  have hlen : (long_line n).bytes.length = n + 2 := by
    unfold long_line long_text
    rw [List.length_append, List.length_replicate, Nat.add_comm]
    rfl
  have hneg := int_of_size_neg h hn
  rw [Bool.eq_false_iff, ne_eq, fits_iff, hlen]
  omega

def name_a : CString := ⟨ascii "a", by decide⟩

theorem long_header (n : Nat) :
    header (long_line (n + 1)) = some (name_a, CString.cut (List.replicate (n + 1) (ch 'b'))) := by
  have hname : header_name (long_line (n + 1)) = name_a := CString.ext (by rfl)
  have hcolon : ch ':' ∈ (long_line (n + 1)).bytes := List.mem_append_left _ (by decide)
  unfold header
  rw [long_header_value, hname, if_pos ⟨hcolon, by simp⟩]

/-- A header line of 2^31 bytes and more. -/
theorem headers_long :
    ¬ ∀ (vars queryvars postvars : Pool) (d : Bytes) (parser : http_parser_t),
      parse_fresh vars queryvars postvars d = .ok (1, parser) →
        ∀ n, ¬ Internal n →
        httpp_getvar parser (some n) = .ok (last_header (header_lines d) n) := by
  intro h
  obtain ⟨m, hlong, hm⟩ : ∃ m, 2 ^ 31 ≤ m + 1 + 2 ∧ m + 1 + 2 < 2 ^ 32 :=
    ⟨2 ^ 31 - 1, by omega, by omega⟩
  have hfirst : first_line (long_request (m + 1)) = get_root := first_line_clean get_root_clean _
  have haccepted : (request_read (long_request (m + 1))).isSome := by
    unfold request_read
    rw [hfirst]
    decide +kernel
  obtain ⟨parser, hrun⟩ := accepts ⟨id, id⟩ ⟨id, id⟩ ⟨id, id⟩ haccepted
  have hname : ¬ Internal name_a := by decide
  have hclaim := h _ _ _ _ parser hrun name_a hname
  have hread := header_read hrun name_a hname
  have hdropped : [long_line (m + 1)].filter fits = [] := by
    rw [List.filter_cons_of_neg (Bool.eq_false_iff.mp (long_line_not_fits hlong hm)),
      List.filter_nil]
  rw [hclaim, long_request_headers, hdropped] at hread
  unfold last_header at hread
  rw [List.filterMap_cons_some (long_header m)] at hread
  simp [last_value] at hread

/-! ## Forged variables -/

/-- The value that the request line gives an internal name. -/
def line_value (d : Bytes) (n : CString) : Option CString :=
  (request_read d).bind fun r => last_value r.vars n

/-- The value of a header that replaces another one from the request line. -/
def forged (d : Bytes) (n : CString) : Option CString :=
  (last_header ((header_lines d).filter fits) n).filter fun v => line_value d n ≠ some v

theorem or_filter (h line : Option CString) :
    h.or line = (h.filter fun v => line ≠ some v).or line := by
  cases h with
  | none => rfl
  | some v =>
    rw [Option.filter_some]
    by_cases hv : line = some v
    · simp [hv]
    · simp [hv]

theorem or_filter_inj {h h' line : Option CString} :
    h.or line = h'.or line ↔ (h.filter fun v => line ≠ some v) = h'.filter fun v =>
      line ≠ some v := by
  constructor
  · intro heq
    cases h <;> cases h' <;> simp_all [Option.filter_some]
  · intro heq
    rw [or_filter h, or_filter h', heq]

theorem last_value_uri (r : Request) : last_value r.vars HTTPP_VAR_URI = some r.path := by
  unfold Request.vars
  rw [last_value_append]
  rfl

section Two

variable {vars queryvars postvars vars' queryvars' postvars' : Pool} {d d' : Bytes}
  {parser parser' : http_parser_t}

theorem accepted_value (h : parse_fresh vars queryvars postvars d = .ok (1, parser)) (n : CString) :
    httpp_getvar parser (some n) = .ok
      ((last_header ((header_lines d).filter fits) n).or (line_value d n)) := by
  obtain ⟨r, hr, -, -, hget⟩ := accepted h
  unfold line_value
  rw [hget, hr, Option.bind_some]

theorem uri_kept (h : parse_fresh vars queryvars postvars d = .ok (1, parser)) :
    httpp_getvar parser (some HTTPP_VAR_URI) = .ok parser.uri ↔ forged d HTTPP_VAR_URI = none := by
  obtain ⟨r, hr, -, huri, -⟩ := accepted h
  have hline : line_value d HTTPP_VAR_URI = some r.path := by
    unfold line_value
    rw [hr, Option.bind_some, last_value_uri]
  have hnone : (none : Option CString).or (some r.path) = some r.path := rfl
  unfold forged
  rw [accepted_value h, huri, hline, Except.ok.injEq]
  conv_lhs => rhs; rw [← hnone]
  exact or_filter_inj

theorem values_agree (h : parse_fresh vars queryvars postvars d = .ok (1, parser))
    (h' : parse_fresh vars' queryvars' postvars' d' = .ok (1, parser'))
    (hline : first_line d = first_line d') (n : CString) :
    httpp_getvar parser (some n) = httpp_getvar parser' (some n) ↔ forged d n = forged d' n := by
  have hsame : line_value d = line_value d' := by
    unfold line_value request_read
    rw [hline]
  unfold forged
  rw [accepted_value h, accepted_value h', Except.ok.injEq, hsame]
  exact or_filter_inj

/-- **Forgery.** Two parses with the same request line agree on the internal names where their
headers replace the same values by the same values. -/
theorem forgery_iff (h : parse_fresh vars queryvars postvars d = .ok (1, parser))
    (h' : parse_fresh vars' queryvars' postvars' d' = .ok (1, parser'))
    (hline : first_line d = first_line d') :
    ((∀ n, Internal n → httpp_getvar parser (some n) = httpp_getvar parser' (some n)) ∧
      httpp_getvar parser (some HTTPP_VAR_URI) = .ok parser.uri ∧
      httpp_getvar parser' (some HTTPP_VAR_URI) = .ok parser'.uri) ↔
      (∀ n, Internal n → forged d n = forged d' n) ∧ forged d HTTPP_VAR_URI = none ∧
      forged d' HTTPP_VAR_URI = none := by
  simp only [values_agree h h' hline, uri_kept h, uri_kept h']

end Two

def forging : Bytes := ascii "GET / HTTP/1.0" ++ LF :: (ascii "__uri: x" ++ [LF])

def honest : Bytes := ascii "GET / HTTP/1.0" ++ [LF]

theorem forging_accepted :
    ∃ parser, parse_fresh ⟨id, id⟩ ⟨id, id⟩ ⟨id, id⟩ forging = .ok (1, parser) :=
  accepts _ _ _ (by decide +kernel)

theorem honest_accepted :
    ∃ parser, parse_fresh ⟨id, id⟩ ⟨id, id⟩ ⟨id, id⟩ honest = .ok (1, parser) :=
  accepts _ _ _ (by decide +kernel)

theorem forging_line : first_line forging = first_line honest := by decide +kernel

/-- With and without a header for the URI. -/
theorem forgery_iff_uri :
    ∃ parser parser', parse_fresh ⟨id, id⟩ ⟨id, id⟩ ⟨id, id⟩ forging = .ok (1, parser) ∧
    parse_fresh ⟨id, id⟩ ⟨id, id⟩ ⟨id, id⟩ honest = .ok (1, parser') ∧
    (((∀ n, Internal n → httpp_getvar parser (some n) = httpp_getvar parser' (some n)) ∧
      httpp_getvar parser (some HTTPP_VAR_URI) = .ok parser.uri ∧
      httpp_getvar parser' (some HTTPP_VAR_URI) = .ok parser'.uri) ↔
      (∀ n, Internal n → forged forging n = forged honest n) ∧ forged forging HTTPP_VAR_URI = none ∧
        forged honest HTTPP_VAR_URI = none) := by
  obtain ⟨parser, h⟩ := forging_accepted
  obtain ⟨parser', h'⟩ := honest_accepted
  exact ⟨parser, parser', h, h', forgery_iff h h' forging_line⟩

theorem uri_forged :
    ¬ ∀ (vars queryvars postvars vars' queryvars' postvars' : Pool) (d d' : Bytes)
      (parser parser' : http_parser_t),
      parse_fresh vars queryvars postvars d = .ok (1, parser) →
        parse_fresh vars' queryvars' postvars' d' = .ok (1, parser') →
        first_line d = first_line d' →
          (∀ n, Internal n → httpp_getvar parser (some n) = httpp_getvar parser' (some n)) ∧
            httpp_getvar parser (some HTTPP_VAR_URI) = .ok parser.uri ∧
            httpp_getvar parser' (some HTTPP_VAR_URI) = .ok parser'.uri := by
  intro hclaim
  obtain ⟨parser, h⟩ := forging_accepted
  obtain ⟨parser', h'⟩ := honest_accepted
  have hsame := (hclaim _ _ _ _ _ _ _ _ _ _ h h' forging_line).1 HTTPP_VAR_URI (by decide)
  rw [values_agree h h' forging_line] at hsame
  exact absurd hsame (by decide +kernel)

end Httpp
