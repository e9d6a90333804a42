import IcecastCommon.Httpp.Keys

/-!
# What the parsing functions change

All that the parsing functions do to a parser, they do through the setters, and by storing the
method and the URI. So they keep whatever the setters keep.
-/

namespace Httpp

open Lib

/-! ## One tree -/

/-- Adding and replacing parameters keeps `Q`. -/
def KeptByParams (Q : var_tree → Prop) : Prop :=
  ∀ tree name value replace, Q tree → Yields (_httpp_set_param_nocopy tree name value replace) Q

section Tree

variable {Q : var_tree → Prop} (hQ : KeptByParams Q) {tree : var_tree}

include hQ

theorem KeptByParams.parse_query_element (h : Q tree) (query : Bytes) (start : Nat)
    (mid : Option Nat) (end_ : Nat) :
    Yields (parse_query_element tree query start mid end_) Q := by
  unfold Httpp.parse_query_element
  refine yields_ite (fun _ => yields_ok h) fun _ => ?_
  cases mid with
  | none => exact yields_ok h
  | some mid =>
    refine yields_ite (fun _ => yields_ok h) fun _ => yields_bind fun key _ =>
      yields_bind fun value _ => ?_
    exact yields_bind fun name _ => yields_bind fun text _ => hQ tree _ _ _ h

theorem KeptByParams.parse_query_loop (query : Bytes) (n : Nat) :
    ∀ (i : Nat) (tree : var_tree) (start : Nat) (mid : Option Nat), Q tree →
      Yields (parse_query_loop query n i tree start mid) fun r => Q r.1 := by
  induction n with
  | zero => exact fun _ _ _ _ h => yields_ok h
  | succ n ih =>
    intro i tree start mid h
    unfold Httpp.parse_query_loop
    refine yields_bind fun c _ => yields_ite (fun _ => ?_) fun _ =>
      yields_ite (fun _ => ih _ tree _ _ h) fun _ => ih _ tree _ _ h
    exact (hQ.parse_query_element h query start mid i).bind fun tree' h' => ih _ tree' _ _ h'

theorem KeptByParams.parse_query (h : Q tree) (query : Option Bytes) (len : Nat) :
    Yields (parse_query tree query len) Q := by
  cases query with
  | none => exact yields_ok h
  | some query =>
    unfold Httpp.parse_query
    refine yields_bind fun c _ => yields_ite (fun _ => yields_ok h) fun _ => ?_
    exact (hQ.parse_query_loop query len 0 tree 0 none h).bind fun r h' =>
      hQ.parse_query_element h' _ _ _ _

theorem KeptByParams.set_param (h : Q tree) (name value : Option CString) :
    Yields (_httpp_set_param tree name value) Q := by
  match name, value with
  | none, _ => exact yields_ok h
  | some _, none => exact yields_ok h
  | some name, some value =>
    exact yields_bind fun text _ => yields_bind fun value _ => hQ tree _ _ _ h

end Tree

/-! ## A parser -/

/-- The trees for parameters are the same. -/
def Beside (parser new : http_parser_t) : Prop :=
  new.queryvars = parser.queryvars ∧ new.postvars = parser.postvars

theorem setvar_beside (parser : http_parser_t) (name value : Option CString) :
    Yields (httpp_setvar parser name value) (Beside parser) := by
  match name, value with
  | none, _ => exact yields_ok ⟨rfl, rfl⟩
  | some _, none => exact yields_ok ⟨rfl, rfl⟩
  | some name, some value =>
    unfold httpp_setvar
    dsimp only
    generalize parser.vars.values.malloc [value] = r
    obtain ⟨cell, values⟩ := r
    cases cell with
    | none => exact yields_ok ⟨rfl, rfl⟩
    | some cell =>
      refine yields_bind fun old _ => yields_ite (fun _ => ?_) fun _ => ?_
      · exact yields_bind fun vars _ => yields_ok ⟨rfl, rfl⟩
      · exact yields_bind fun vars _ => yields_bind fun vars' _ => yields_ok ⟨rfl, rfl⟩

theorem deletevar_beside (parser : http_parser_t) (name : Option CString) :
    Yields (httpp_deletevar parser name) (Beside parser) := by
  cases name with
  | none => exact yields_ok ⟨rfl, rfl⟩
  | some name => exact yields_bind fun vars _ => yields_ok ⟨rfl, rfl⟩

/-- What a parser has for each of its trees, and keeps when they are set. -/
structure KeptBySetters (Q : var_tree → Prop) : Prop where
  params : KeptByParams Q
  setvar : ∀ parser name value, Q parser.vars →
    Yields (httpp_setvar parser name value) fun new => Q new.vars
  deletevar : ∀ parser name, Q parser.vars →
    Yields (httpp_deletevar parser name) fun new => Q new.vars

structure Each (Q : var_tree → Prop) (parser : http_parser_t) : Prop where
  vars : Q parser.vars
  queryvars : Q parser.queryvars
  postvars : Q parser.postvars

section Parser

variable {Q : var_tree → Prop} (hQ : KeptBySetters Q) {parser : http_parser_t}

include hQ

theorem KeptBySetters.set (h : Each Q parser) (name value : Option CString) :
    Yields (httpp_setvar parser name value) (Each Q) := by
  intro new hnew
  obtain ⟨hquery, hpost⟩ := setvar_beside parser name value new hnew
  exact ⟨hQ.setvar parser name value h.vars new hnew, hquery ▸ h.queryvars, hpost ▸ h.postvars⟩

theorem KeptBySetters.delete (h : Each Q parser) (name : Option CString) :
    Yields (httpp_deletevar parser name) (Each Q) := by
  intro new hnew
  obtain ⟨hquery, hpost⟩ := deletevar_beside parser name new hnew
  exact ⟨hQ.deletevar parser name h.vars new hnew, hquery ▸ h.queryvars, hpost ▸ h.postvars⟩

theorem KeptBySetters.set_defaults (h : Each Q parser) (defaults : http_varlist_t) :
    Yields (Httpp.httpp_initialize parser defaults) (Each Q) :=
  run_yields (Each Q) (fun var _ _ h =>
    run_yields (Each Q) (fun value _ _ h => hQ.set h var.1 value) h) h

theorem KeptBySetters.parse_uri (h : Each Q parser) (data : Bytes) (uri : Option Nat) :
    Yields (parse_uri parser data uri) fun r => Each Q r.2.1 := by
  cases uri with
  | none => exact yields_ok h
  | some uri =>
    unfold Httpp.parse_uri
    refine yields_bind fun text _ => yields_ite (fun _ => yields_bind fun query _ => ?_) fun _ =>
      yields_ok h
    cases query with
    | none => exact yields_bind fun _ _ => yields_ok ⟨h.vars, h.queryvars, h.postvars⟩
    | some query =>
      refine yields_bind fun _ _ => (hQ.set h _ _).bind fun parser1 h1 => ?_
      refine yields_bind fun _ _ => (hQ.set h1 _ _).bind fun parser2 h2 => yields_bind fun _ _ =>
        yields_bind fun _ _ => ?_
      refine (hQ.params.parse_query h2.queryvars _ _).bind fun queryvars hq => ?_
      exact yields_bind fun _ _ => yields_ok ⟨h2.vars, hq, h2.postvars⟩

theorem KeptBySetters.parse_version (h : Each Q parser) (data : Bytes) (version : Option Nat) :
    Yields (parse_version parser data version) fun r => Each Q r.2.1 := by
  cases version with
  | none => exact yields_ok h
  | some version =>
    refine yields_bind fun slash _ => ?_
    cases slash with
    | none => exact yields_ok h
    | some tmp =>
      refine yields_bind fun _ _ => yields_bind fun _ _ => yields_bind fun _ _ =>
        yields_ite (fun _ => ?_) fun _ => yields_ok h
      exact (hQ.set h _ _).bind fun parser1 h1 =>
        (hQ.set h1 _ _).bind fun parser2 h2 => yields_ok h2

theorem KeptBySetters.set_req_type (h : Each Q parser) :
    Yields (set_req_type parser) fun r => Each Q r.2 := by
  refine yields_ite (fun _ => ?_) fun _ => yields_ok h
  cases methods.lookup parser.req_type with
  | none => exact yields_ok h
  | some name => exact (hQ.set h _ _).bind fun parser1 h1 => yields_ok h1

theorem KeptBySetters.set_uri (h : Each Q parser) :
    Yields (set_uri parser) fun r => Each Q r.2 := by
  unfold Httpp.set_uri
  cases parser.uri with
  | none => exact yields_ok h
  | some uri => exact (hQ.set h _ _).bind fun parser1 h1 => yields_ok h1

theorem KeptBySetters.parse_header (h : Each Q parser) (data : Bytes) (name : Nat) :
    Yields (parse_header data name parser) fun r => Each Q r.2 := by
  refine yields_bind fun slen _ => yields_bind fun r _ => ?_
  obtain ⟨text, value⟩ := r
  cases value with
  | none => exact yields_ok h
  | some value =>
    refine yields_bind fun _ _ => yields_bind fun _ _ => yields_bind fun _ _ => ?_
    exact (hQ.set h _ _).bind fun parser1 h1 => yields_ok h1

theorem KeptBySetters.parse_headers (line : Nat → Option Nat) (n : Nat) :
    ∀ (l : Nat) (data : Bytes) {parser : http_parser_t}, Each Q parser →
      Yields (parse_headers_loop line n l data parser) (Each Q) := by
  induction n with
  | zero => exact fun _ _ _ h => yields_ok h
  | succ n ih =>
    intro l data parser h
    exact yields_bind fun _ _ => (hQ.parse_header h _ _).bind fun r hr => ih _ _ hr

theorem KeptBySetters.parse_rest (h : Each Q parser) (data : Bytes) (line : Nat → Option Nat)
    (lines : Nat) (uri version : Option Nat) :
    Yields (parse_rest parser data line lines uri version) fun r => Each Q r.2 := by
  refine (hQ.parse_uri h data uri).bind fun r1 h1 => yields_ite (fun _ => yields_ok h1) fun _ => ?_
  refine (hQ.parse_version h1 _ _).bind fun r2 h2 => yields_ite (fun _ => yields_ok h2) fun _ => ?_
  refine (hQ.set_req_type h2).bind fun r3 h3 => yields_ite (fun _ => yields_ok h3) fun _ => ?_
  refine (hQ.set_uri h3).bind fun r4 h4 => yields_ite (fun _ => yields_ok h4) fun _ => ?_
  exact (hQ.parse_headers line _ 1 _ h4).bind fun parser5 h5 => yields_ok h5

theorem KeptBySetters.parse (h : Each Q parser) (http_data : Option Bytes) (len : Nat) :
    Yields (httpp_parse parser http_data len) fun r => Each Q r.2 := by
  cases http_data with
  | none => exact yields_ok h
  | some http_data =>
    refine yields_bind fun _ _ => yields_bind fun r _ => yields_bind fun _ _ =>
      yields_bind fun _ _ => ?_
    refine yields_bind fun words _ => ?_
    cases words with
    | none => exact yields_ok h
    | some words =>
      refine yields_bind fun method _ => ?_
      have h0 : Each Q { parser with req_type := httpp_str_to_method method } :=
        ⟨h.vars, h.queryvars, h.postvars⟩
      exact hQ.parse_rest h0 _ _ _ _ _

theorem KeptBySetters.parse_response (h : Each Q parser) (http_data : Option Bytes) (len : Nat)
    (uri : Option CString) :
    Yields (httpp_parse_response parser http_data len uri) fun r => Each Q r.2 := by
  cases http_data with
  | none => exact yields_ok h
  | some http_data =>
    refine yields_bind fun _ _ => yields_bind fun r _ => yields_bind fun _ _ =>
      yields_bind fun _ _ => ?_
    refine yields_bind fun words _ => ?_
    obtain ⟨data, resp_code, message⟩ := words
    cases resp_code with
    | none => exact yields_ok h
    | some resp_code =>
      cases message with
      | none => exact yields_ok h
      | some message =>
        refine yields_bind fun code _ => (hQ.set h _ _).bind fun parser1 h1 => ?_
        have hmessage : Yields (set_message parser1 data (atoi code.bytes) message) (Each Q) :=
          yields_ite (fun _ => yields_bind fun text _ => hQ.set h1 _ _) fun _ => yields_ok h1
        refine hmessage.bind fun parser2 h2 => (hQ.set h2 _ _).bind fun parser3 h3 => ?_
        exact (hQ.set h3 _ _).bind fun parser4 h4 =>
          (hQ.parse_headers _ _ 1 _ h4).bind fun parser5 h5 => yields_ok h5

theorem KeptBySetters.parse_postdata (h : Each Q parser) (body_data : Option Bytes) (len : Nat) :
    Yields (httpp_parse_postdata parser body_data len) fun r => Each Q r.2 := by
  refine yields_bind fun header _ => ?_
  cases header with
  | none => exact yields_error _
  | some header =>
    refine yields_ite (fun _ => yields_ok h) fun _ => ?_
    exact (hQ.params.parse_query h.postvars _ _).bind fun postvars hp =>
      yields_ok ⟨h.vars, h.queryvars, hp⟩

end Parser

end Httpp
