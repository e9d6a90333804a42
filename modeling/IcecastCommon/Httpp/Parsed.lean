import IcecastCommon.Httpp.Request

/-!
# What a parse leaves behind

A parse that returns 1 sets the variables of the request line, then one variable for each header.
-/

namespace Httpp

open Lib Avl httpp_request_type_e

/-! ## The request line -/

/-- The variables of a URI with a query. -/
def query_vars (uri : CString) : List (CString × CString) :=
  if ch '?' ∈ uri.bytes then
    [(HTTPP_VAR_RAWURI, uri), (HTTPP_VAR_QUERYARGS, uri.onward (ch '?'))]
  else
    []

/-- What the words of an accepted request line say. -/
structure Request where
  req_type : httpp_request_type_e
  name : CString
  uri : CString
  version : CString
deriving DecidableEq

namespace Request

def path (r : Request) : CString := r.uri.before (ch '?')

def protocol (r : Request) : CString := r.version.before (ch '/')

def number (r : Request) : CString := r.version.behind (ch '/')

/-- The variables of the request line, in the order in which they are set. -/
def vars (r : Request) : List (CString × CString) :=
  query_vars r.uri ++ [(HTTPP_VAR_PROTOCOL, r.protocol), (HTTPP_VAR_VERSION, r.number)] ++
    [(HTTPP_VAR_REQ_TYPE, r.name)] ++ [(HTTPP_VAR_URI, r.path)]

end Request

/-- The method of that name in any case. -/
def find_method (method : CString) : Option (httpp_request_type_e × CString) :=
  methods.find? fun m => strcasecmp m.2.bytes method.bytes = 0

def request (words : Words) : Option Request :=
  match words.uri, words.version, find_method words.method with
  | some uri, some version, some (req_type, name) =>
    if (version.before (ch '/')).bytes.length > 0 ∧ (version.behind (ch '/')).bytes.length > 0 then
      some { req_type, name, uri, version }
    else none
  | _, _, _ => none

/-! ## Setting variables -/

/-- The changes of calls that set variables. -/
def settings (vars : List (CString × CString)) : List (CString × Option CString) :=
  vars.map fun v => (v.1, some v.2)

theorem settings_append (l l' : List (CString × CString)) :
    settings (l ++ l') = settings l ++ settings l' :=
  List.map_append

section Kept

variable {parser : http_parser_t} {changes : List (CString × Option CString)}

theorem Kept.set (h : Kept parser changes) (name value : CString) :
    ∃ vars, httpp_setvar parser (some name) (some value) = .ok { parser with vars } ∧
      Kept { parser with vars } (changes ++ settings [(name, value)]) := by
  obtain ⟨vars, hrun, hmaps⟩ := setvar_spec h name value
  refine ⟨vars, hrun, ?_⟩
  unfold Kept settings
  rw [List.map_singleton, last_change_append]
  exact hmaps

/-- The variables that the header lines set. -/
def header_vars (ts : List CString) : List (CString × CString) := (ts.filter fits).filterMap header

theorem header_vars_cons (t : CString) (ts : List CString) :
    header_vars (t :: ts) = header_vars [t] ++ header_vars ts := by
  unfold header_vars
  rw [← List.singleton_append, List.filter_append, List.filterMap_append]

theorem Kept.store_header (h : Kept parser changes) (t : CString) :
    ∃ vars, store_header parser t = .ok { parser with vars } ∧
      Kept { parser with vars } (changes ++ settings (header_vars [t])) := by
  have hnone (hnil : header_vars [t] = []) :
      Kept { parser with vars := parser.vars } (changes ++ settings (header_vars [t])) := by
    rw [hnil]
    unfold settings
    rw [List.map_nil, List.append_nil]
    exact h
  unfold Httpp.store_header
  match hheader : header t with
  | none =>
    refine ⟨parser.vars, rfl, hnone ?_⟩
    unfold header_vars
    rw [List.filterMap_eq_nil_iff]
    intro u hu
    rw [List.mem_singleton.mp (List.mem_of_mem_filter hu)]
    exact hheader
  | some (name, value) =>
    split_ifs with hfits
    · have hvars : header_vars [t] = [(name, value)] := by
        unfold header_vars
        rw [List.filter_cons_of_pos hfits, List.filter_nil, List.filterMap_cons_some hheader,
          List.filterMap_nil]
      rw [hvars]
      exact h.set name value
    · refine ⟨parser.vars, rfl, hnone ?_⟩
      unfold header_vars
      rw [List.filter_cons_of_neg hfits, List.filter_nil, List.filterMap_nil]

theorem Kept.store_headers (h : Kept parser changes) (ts : List CString) :
    ∃ vars, ts.foldlM Httpp.store_header parser = .ok { parser with vars } ∧
      Kept { parser with vars } (changes ++ settings (header_vars ts)) := by
  induction ts generalizing parser changes with
  | nil =>
    refine ⟨parser.vars, rfl, ?_⟩
    show Kept parser (changes ++ [])
    rw [List.append_nil]
    exact h
  | cons t ts ih =>
    obtain ⟨vars1, hstore, h1⟩ := h.store_header t
    obtain ⟨vars, hrun, h'⟩ := ih h1
    refine ⟨vars, ?_, ?_⟩
    · rw [List.foldlM_cons, hstore, ok_bind, hrun]
    · rw [header_vars_cons, settings_append, ← List.append_assoc]
      exact h'

/-! ## The steps of a parse -/

theorem Kept.request_uri (h : Kept parser changes) (hquery : ∃ f, Maps parser.queryvars f)
    (uri : CString) :
    ∃ vars queryvars, request_uri parser uri =
      .ok { parser with vars, queryvars, uri := some (uri.before (ch '?')) } ∧
      Kept { parser with vars } (changes ++ settings (query_vars uri)) := by
  unfold Httpp.request_uri query_vars
  split_ifs with hmem
  · obtain ⟨vars1, hraw, h1⟩ := h.set HTTPP_VAR_RAWURI uri
    obtain ⟨vars, hargs, h2⟩ := h1.set HTTPP_VAR_QUERYARGS (uri.onward (ch '?'))
    obtain ⟨f, hmaps⟩ := hquery
    obtain ⟨queryvars, hrun, -⟩ := hmaps.store_elements (elements (uri.behind (ch '?')).bytes)
    refine ⟨vars, queryvars, ?_, ?_⟩
    · rw [hraw, ok_bind, hargs, ok_bind, hrun]
      rfl
    · rw [List.append_assoc] at h2
      exact h2
  · refine ⟨parser.vars, parser.queryvars, ?_, ?_⟩
    · rw [CString.before_of_not_mem hmem]
      rfl
    · show Kept parser (changes ++ [])
      rw [List.append_nil]
      exact h

theorem Kept.request_version (h : Kept parser changes) {version : CString}
    (hparts : (version.before (ch '/')).bytes.length > 0 ∧
      (version.behind (ch '/')).bytes.length > 0) :
    ∃ vars, request_version parser version = .ok (true, { parser with vars }) ∧
      Kept { parser with vars } (changes ++ settings [(HTTPP_VAR_PROTOCOL, version.before (ch '/')),
        (HTTPP_VAR_VERSION, version.behind (ch '/'))]) := by
  obtain ⟨vars1, hprotocol, h1⟩ := h.set HTTPP_VAR_PROTOCOL (version.before (ch '/'))
  obtain ⟨vars, hnumber, h2⟩ := h1.set HTTPP_VAR_VERSION (version.behind (ch '/'))
  refine ⟨vars, ?_, ?_⟩
  · unfold Httpp.request_version
    simp only [if_pos hparts, hprotocol, ok_bind, hnumber, pure_eq_ok]
  · rw [List.append_assoc] at h2
    exact h2

theorem methods_lookup :
    ∀ m ∈ methods, m.1 ≠ httpp_req_none ∧ m.1 ≠ httpp_req_unknown ∧
      methods.lookup m.1 = some m.2 := by
  decide

theorem Kept.set_req_type (h : Kept parser changes) {method name : CString}
    (hfind : find_method method = some (parser.req_type, name)) :
    ∃ vars, set_req_type parser = .ok (true, { parser with vars }) ∧
      Kept { parser with vars } (changes ++ settings [(HTTPP_VAR_REQ_TYPE, name)]) := by
  obtain ⟨hnone, hunknown, hlookup⟩ := methods_lookup _ (List.mem_of_find?_eq_some hfind)
  obtain ⟨vars, hset, h1⟩ := h.set HTTPP_VAR_REQ_TYPE name
  refine ⟨vars, ?_, h1⟩
  unfold Httpp.set_req_type
  rw [if_pos ⟨hnone, hunknown⟩]
  simp only [hlookup, hset, ok_bind, pure_eq_ok]

theorem Kept.set_uri (h : Kept parser changes) {uri : CString} (huri : parser.uri = some uri) :
    ∃ vars, set_uri parser = .ok (true, { parser with vars }) ∧
      Kept { parser with vars } (changes ++ settings [(HTTPP_VAR_URI, uri)]) := by
  obtain ⟨vars, hset, h1⟩ := h.set HTTPP_VAR_URI uri
  refine ⟨vars, ?_, h1⟩
  unfold Httpp.set_uri
  simp only [huri, hset, ok_bind, pure_eq_ok]

theorem str_to_method_eq (method : CString) :
    httpp_str_to_method method = ((find_method method).map (·.1)).getD httpp_req_unknown := by
  unfold httpp_str_to_method find_method
  cases methods.find? fun m => strcasecmp m.2.bytes method.bytes = 0 <;> rfl

theorem Kept.accept (h : Kept parser changes) (hquery : ∃ f, Maps parser.queryvars f)
    {words : Words} {r : Request} (hr : request words = some r) (ts : List CString) :
    ∃ vars queryvars,
      perform parser (some words) ts =
        .ok (1, { parser with req_type := r.req_type, uri := some r.path, vars, queryvars }) ∧
      Kept { parser with vars } (changes ++ settings (r.vars ++ header_vars ts)) := by
  unfold request at hr
  split at hr
  · rename_i uri version req_type name huri hversion hfind
    split_ifs at hr with hparts
    obtain rfl := Option.some.inj hr
    have hmethod : httpp_str_to_method words.method = req_type := by
      rw [str_to_method_eq, hfind]
      rfl
    have h0 : Kept { parser with req_type } changes := h
    obtain ⟨vars1, queryvars, hrun1, h1⟩ := h0.request_uri hquery uri
    have h1' :
        Kept { parser with req_type, vars := vars1, queryvars, uri := some (uri.before (ch '?')) }
      (changes ++ settings (query_vars uri)) := h1
    obtain ⟨vars2, hrun2, h2⟩ := h1'.request_version hparts
    obtain ⟨vars3, hrun3, h3⟩ := h2.set_req_type hfind
    obtain ⟨vars4, hrun4, h4⟩ := h3.set_uri rfl
    obtain ⟨vars5, hrun5, h5⟩ := h4.store_headers ts
    refine ⟨vars5, queryvars, ?_, ?_⟩
    · unfold perform perform_rest
      simp only [hmethod, huri, hversion, hrun1, ok_bind, hrun2, hrun3, hrun4, hrun5, Bool.not_true,
        Bool.false_eq_true, if_false, pure_eq_ok]
      rfl
    · simp only [Request.vars, settings_append, ← List.append_assoc]
      exact h5
  · cases hr

theorem Kept.reject (h : Kept parser changes) (hquery : ∃ f, Maps parser.queryvars f)
    {words : Words} (hr : request words = none) (ts : List CString) :
    ∃ parser', perform parser (some words) ts = .ok (0, parser') := by
  obtain ⟨method, uri, version⟩ := words
  have h0 : Kept { parser with req_type := httpp_str_to_method method } changes := h
  show ∃ parser',
    perform_rest { parser with req_type := httpp_str_to_method method } uri version ts =
    .ok (0, parser')
  unfold perform_rest
  match uri with
  | none => exact ⟨_, rfl⟩
  | some uri =>
    obtain ⟨vars1, queryvars, hrun1, h1⟩ := h0.request_uri hquery uri
    simp only [hrun1, ok_bind]
    match version with
    | none => exact ⟨_, rfl⟩
    | some version =>
      by_cases hparts : (version.before (ch '/')).bytes.length > 0 ∧
        (version.behind (ch '/')).bytes.length > 0
      · have h1' : Kept { parser with
            req_type := httpp_str_to_method method, vars := vars1, queryvars,
            uri := some (uri.before (ch '?')) }
          (changes ++ settings (query_vars uri)) := h1
        obtain ⟨vars2, hrun2, -⟩ := h1'.request_version hparts
        have hunknown : httpp_str_to_method method = httpp_req_unknown := by
          rw [str_to_method_eq]
          match hfind : find_method method with
          | none => rfl
          | some (req_type, name) =>
            simp only [request, hfind, if_pos hparts] at hr
            cases hr
        rw [hunknown] at hrun2 ⊢
        simp only [hrun2, ok_bind]
        exact ⟨_, rfl⟩
      · have hrun2 (parser : http_parser_t) :
            Httpp.request_version parser version = .ok (false, parser) := if_neg hparts
        simp only [hrun2, ok_bind]
        exact ⟨_, rfl⟩

theorem Kept.perform (h : Kept parser changes) (hquery : ∃ f, Maps parser.queryvars f)
    (ws : Option Words) (ts : List CString) :
    (∃ r parser', ws.bind request = some r ∧ Httpp.perform parser ws ts = .ok (1, parser') ∧
      parser'.req_type = r.req_type ∧ parser'.uri = some r.path ∧
      Kept parser' (changes ++ settings (r.vars ++ header_vars ts))) ∨
    (ws.bind request = none ∧ ∃ parser', Httpp.perform parser ws ts = .ok (0, parser')) := by
  match ws with
  | none => exact .inr ⟨rfl, parser, rfl⟩
  | some ws =>
    rw [Option.bind_some]
    match hr : request ws with
    | none => exact .inr ⟨rfl, h.reject hquery hr ts⟩
    | some r =>
      obtain ⟨vars, queryvars, hrun, h'⟩ := h.accept hquery hr ts
      exact .inl ⟨r, _, rfl, hrun, rfl, rfl, h'⟩

end Kept

/-! ## A fresh parser -/

/-- `httpp_parse` of all bytes on a fresh parser. -/
def parse_fresh (vars queryvars postvars : Pool) (d : Bytes) : C (Int × http_parser_t) := do
  let parser ← httpp_create vars queryvars postvars
  httpp_parse parser (some d) d.length

/-- The request line as the code reads it. -/
def request_read (d : Bytes) : Option Request :=
  (words (seen (first_line d)) (first_line d)).bind request

/-- **Parses.** The return value and the variables. -/
theorem parse_fresh_spec (vars queryvars postvars : Pool) (d : Bytes) :
    (∃ r parser, request_read d = some r ∧ parse_fresh vars queryvars postvars d = .ok (1, parser) ∧
      parser.req_type = r.req_type ∧ parser.uri = some r.path ∧
      Kept parser (settings (r.vars ++ header_vars (header_lines d)))) ∨
    (request_read d = none ∧ ∃ parser,
      parse_fresh vars queryvars postvars d = .ok (0, parser)) := by
  obtain ⟨parser0, hnew, -, hempty, hquery, -⟩ := create_parser_spec vars queryvars postvars
  have hkept : Kept parser0 [] := hempty
  have hparse : parse_fresh vars queryvars postvars d =
      perform parser0 (words (seen (first_line d)) (first_line d)) (header_lines d) := by
    unfold parse_fresh
    rw [hnew, ok_bind, httpp_parse_spec]
  rw [hparse]
  exact hkept.perform ⟨_, hquery⟩ _ _

/-! ## The end of the headers -/

theorem takeWhile_stop {p : Byte → Bool} {c : Byte} (hc : p c = false) (l r r' : Bytes) :
    (l ++ c :: r).takeWhile p = (l ++ c :: r').takeWhile p := by
  rw [List.takeWhile_append, List.takeWhile_append, List.takeWhile_cons_of_neg (by simp [hc]),
    List.takeWhile_cons_of_neg (by simp [hc])]

/-- An LF in front of a CR or another LF. -/
def Blank (r : Bytes) : Prop := r.head? = some LF ∨ r.head? = some CR

theorem lf_lines_blank (n : Nat) (p : Bytes) {r r' : Bytes} (hr : Blank r) (hr' : Blank r') :
    lf_lines n (p ++ LF :: r) = lf_lines n (p ++ LF :: r') := by
  induction n generalizing p with
  | zero => rfl
  | succ n ih =>
    by_cases hmem : LF ∈ p
    · obtain ⟨l, p', rfl, hl⟩ := List.eq_append_cons_of_mem hmem
      have hhead (u : Bytes) : (p' ++ LF :: u).head? = (p' ++ [LF]).head? := by cases p' <;> rfl
      simp only [List.append_assoc, List.cons_append]
      rw [lf_lines_append hl, lf_lines_append hl, hhead r, hhead r', ih p']
    · unfold Blank at hr hr'
      rw [lf_lines_append hmem, lf_lines_append hmem, if_pos hr, if_pos hr']

theorem httpp_parse_blank (parser : http_parser_t) (p : Bytes) {r r' : Bytes} (hr : Blank r)
    (hr' : Blank r') :
    httpp_parse parser (some (p ++ LF :: r)) (p ++ LF :: r).length =
      httpp_parse parser (some (p ++ LF :: r')) (p ++ LF :: r').length := by
  have hfirst : first_line (p ++ LF :: r) = first_line (p ++ LF :: r') :=
    CString.ext (takeWhile_stop (by decide) p r r')
  have hheaders : header_lines (p ++ LF :: r) = header_lines (p ++ LF :: r') := by
    unfold header_lines
    rw [lf_lines_blank MAX_HEADERS p hr hr']
  rw [httpp_parse_spec, httpp_parse_spec, hfirst, hheaders]

/-- **The header section.** What stands behind its end changes nothing, whatever the parser holds. A
fresh parser never fails. -/
theorem parse_section (p r r' : Bytes) (hr : Blank r) (hr' : Blank r') :
    (∀ parser, httpp_parse parser (some (p ++ LF :: r)) (p ++ LF :: r).length =
      httpp_parse parser (some (p ++ LF :: r')) (p ++ LF :: r').length) ∧
    ∀ vars queryvars postvars, ∃ ret parser,
      parse_fresh vars queryvars postvars (p ++ LF :: r) = .ok (ret, parser) ∧
      parse_fresh vars queryvars postvars (p ++ LF :: r') = .ok (ret, parser) := by
  constructor
  · exact fun parser => httpp_parse_blank parser p hr hr'
  · intro vars queryvars postvars
    have hsame :
        parse_fresh vars queryvars postvars (p ++ LF :: r) =
        parse_fresh vars queryvars postvars (p ++ LF :: r') := by
      unfold parse_fresh
      exact bind_congr fun parser => httpp_parse_blank parser p hr hr'
    rcases parse_fresh_spec vars queryvars postvars (p ++ LF :: r) with ⟨_, parser, -, hrun, -⟩ |
      ⟨-, parser, hrun⟩
    · exact ⟨1, parser, hrun, hsame ▸ hrun⟩
    · exact ⟨0, parser, hrun, hsame ▸ hrun⟩

/-- Two bodies. -/
theorem parse_section_bodies :
    (∀ parser, httpp_parse parser (some (ascii "GET / HTTP/1.0" ++ LF :: [LF, ch 'a'])) 17 =
      httpp_parse parser (some (ascii "GET / HTTP/1.0" ++ LF :: [CR, LF])) 17) ∧
    ∀ vars queryvars postvars, ∃ ret parser,
      parse_fresh vars queryvars postvars (ascii "GET / HTTP/1.0" ++ LF :: [LF, ch 'a']) =
      .ok (ret, parser) ∧
      parse_fresh vars queryvars postvars (ascii "GET / HTTP/1.0" ++ LF :: [CR, LF]) =
      .ok (ret, parser) :=
  parse_section (ascii "GET / HTTP/1.0") [LF, ch 'a'] [CR, LF] (.inl rfl) (.inr rfl)

end Httpp
