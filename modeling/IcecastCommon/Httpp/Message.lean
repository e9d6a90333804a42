import IcecastCommon.Httpp.Changes
import IcecastCommon.Httpp.Form
import IcecastCommon.Httpp.Response

/-!
# Messages

A request or a response as it is meant, the text that says so, and what the parser has of it.
-/

namespace Httpp

open Lib httpp_request_type_e

/-! ## Lines -/

/-- What a line has in front of its LF. -/
def ending (cr : Bool) : Bytes := if cr then [CR] else []

/-- Some lines and an empty one. -/
def head (cr : Bool) (ts : List CString) : Bytes :=
  ts.flatMap (fun t => t.bytes ++ ending cr ++ [LF]) ++ ending cr ++ [LF]

/-- A text that is one line. -/
def OneLine (t : CString) : Prop := CR ∉ t.bytes ∧ LF ∉ t.bytes

instance (t : CString) : Decidable (OneLine t) := inferInstanceAs (Decidable (_ ∧ _))

instance (w : Bytes) : Decidable (Solid w) := inferInstanceAs (Decidable (_ ∧ _))

theorem head_cons (cr : Bool) (t : CString) (ts : List CString) (rest : Bytes) :
    head cr (t :: ts) ++ rest = t.bytes ++ ending cr ++ LF :: (head cr ts ++ rest) := by
  simp [head]

theorem OneLine.ended {t : CString} (h : OneLine t) (cr : Bool) : LF ∉ t.bytes ++ ending cr := by
  rw [List.mem_append, not_or]
  refine ⟨h.2, ?_⟩
  cases cr <;> decide

theorem OneLine.cut {t : CString} (h : OneLine t) (cr : Bool) :
    cut_line (t.bytes ++ ending cr) = t := by
  apply CString.ext
  show (t.bytes ++ ending cr).takeWhile _ = t.bytes
  rw [List.takeWhile_append_of_pos (clean_pos h)]
  cases cr <;> simp [ending]

section Head

variable (cr : Bool) {t : CString} {ts : List CString} (hts : ∀ t ∈ ts, OneLine t ∧ t.bytes ≠ [])
  (rest : Bytes)

include hts

theorem head_starts :
    (head cr ts ++ rest).head? = some LF ∨ (head cr ts ++ rest).head? = some CR ↔ ts = [] := by
  cases ts with
  | nil => cases cr <;> simp [head, ending]
  | cons t ts =>
    obtain ⟨⟨hcr, hlf⟩, hne⟩ := hts t List.mem_cons_self
    obtain ⟨c, B, hB⟩ := List.exists_cons_of_ne_nil hne
    rw [hB, List.mem_cons, not_or] at hcr hlf
    rw [head_cons, hB]
    simp [Ne.symm hcr.1, Ne.symm hlf.1]

theorem lf_lines_head_cons (n : Nat) (ht : OneLine t) :
    lf_lines n (head cr (t :: ts) ++ rest) = ((t :: ts).take n).map fun t =>
      t.bytes ++ ending cr := by
  induction ts generalizing n t with
  | nil =>
    cases n with
    | zero => rfl
    | succ n =>
      rw [head_cons, lf_lines_append (ht.ended cr), if_pos ((head_starts cr hts rest).mpr rfl)]
      simp
  | cons u ts ih =>
    cases n with
    | zero => rfl
    | succ n =>
      rw [List.forall_mem_cons] at hts
      rw [head_cons, lf_lines_append (ht.ended cr), if_neg, ih hts.2 n hts.1.1]
      · rfl
      · rw [head_starts cr (List.forall_mem_cons.mpr hts) rest]
        exact List.cons_ne_nil u ts

theorem head_lines (ht : OneLine t) :
    first_line (head cr (t :: ts) ++ rest) = t ∧
      header_lines (head cr (t :: ts) ++ rest) = ts.take (MAX_HEADERS - 1) := by
  constructor
  · rw [← cut_first, head_cons, first_append (ht.ended cr), ht.cut]
  · have hlines : lf_lines MAX_HEADERS (head cr (t :: ts) ++ rest) =
        (t :: ts.take (MAX_HEADERS - 1)).map fun t => t.bytes ++ ending cr :=
        lf_lines_head_cons cr hts rest MAX_HEADERS ht
    unfold header_lines
    rw [hlines, List.map_cons, List.tail_cons, List.map_map]
    conv_rhs => rw [← List.map_id (ts.take (MAX_HEADERS - 1))]
    apply List.map_congr_left
    intro u hu
    exact (hts u (List.mem_of_mem_take hu)).1.cut cr

end Head

/-! ## Headers -/

/-- The name in lower case, as the parser keeps it. -/
def lower (name : CString) : CString := ⟨name.bytes.map tolower, lower_nulFree name⟩

/-- A name and a value that can stand in a line. -/
structure Header where
  name : CString
  value : CString
  name_line : OneLine name
  value_line : OneLine value
  name_ends : ch ':' ∉ name.bytes
  value_starts : ∃ c B, value.bytes = c :: B ∧ c ≠ ch ' '

namespace Header

variable (h : Header)

theorem line_nulFree : 0 ∉ h.name.bytes ++ (ascii ": " ++ h.value.bytes) := by
  simp only [List.mem_append, not_or]
  exact ⟨h.name.nulFree, by decide, h.value.nulFree⟩

def line : CString := ⟨h.name.bytes ++ (ascii ": " ++ h.value.bytes), h.line_nulFree⟩

def var : CString × CString := (lower h.name, h.value)

theorem line_oneLine : OneLine h.line ∧ h.line.bytes ≠ [] := by
  unfold OneLine line
  simp only [List.mem_append, not_or]
  refine ⟨⟨⟨h.name_line.1, by decide, h.value_line.1⟩, h.name_line.2, by decide, h.value_line.2⟩,
    ?_⟩
  rw [← List.length_pos_iff]
  simp [ascii]

theorem line_value : header_value h.line.bytes = h.value.bytes := by
  obtain ⟨c, B, hB, hc⟩ := h.value_starts
  have hname : h.line.bytes.dropWhile (· != ch ':') = ch ':' :: ch ' ' :: h.value.bytes := by
    show (h.name.bytes ++ (ascii ": " ++ h.value.bytes)).dropWhile _ = _
    rw [List.dropWhile_append_of_pos (all_ne h.name_ends)]
    rfl
  unfold header_value
  rw [hname, List.dropWhile_cons_of_pos (by decide), List.dropWhile_cons_of_neg (by decide),
    List.dropWhile_cons_of_pos (by decide), hB, List.dropWhile_cons_of_neg (by simpa using hc)]

theorem line_name : header_name h.line = lower h.name := by
  apply CString.ext
  show ((h.name.bytes ++ (ascii ": " ++ h.value.bytes)).takeWhile _).map tolower =
    h.name.bytes.map tolower
  rw [List.takeWhile_append_of_pos (all_ne h.name_ends)]
  have hcolon : (ascii ": " ++ h.value.bytes).takeWhile (· != ch ':') = [] :=
    List.takeWhile_cons_of_neg (by decide)
  rw [hcolon, List.append_nil]

theorem line_header : header h.line = some h.var := by
  obtain ⟨c, B, hB, -⟩ := h.value_starts
  have hmem : ch ':' ∈ h.line.bytes := List.mem_append_right _ List.mem_cons_self
  unfold header
  rw [h.line_value, if_pos ⟨hmem, by simp [hB]⟩, h.line_name, CString.cut_bytes]
  rfl

end Header

/-- A first line, headers, and what comes behind the empty line. -/
def written (cr : Bool) (t : CString) (headers : List Header) (rest : Bytes) : Bytes :=
  head cr (t :: headers.map Header.line) ++ rest

/-- The headers that fit in the table of lines, as variables. -/
def known_vars (headers : List Header) : List (CString × CString) :=
  (headers.take (MAX_HEADERS - 1)).map Header.var

section Written

variable (cr : Bool) {t : CString} (ht : OneLine t) {headers : List Header} (rest : Bytes)

include ht

theorem written_lines : first_line (written cr t headers rest) = t ∧
    header_lines (written cr t headers rest) =
      (headers.take (MAX_HEADERS - 1)).map Header.line := by
  unfold written
  rw [List.map_take]
  refine head_lines cr ?_ rest ht
  intro u hu
  obtain ⟨h, -, rfl⟩ := List.mem_map.mp hu
  exact h.line_oneLine

theorem written_plain (hexternal : ∀ h ∈ headers, ¬ Internal (lower h.name)) :
    Plain_headers (written cr t headers rest) := by
  intro u hu name value hheader
  rw [(written_lines cr ht rest).2] at hu
  obtain ⟨h, hh, rfl⟩ := List.mem_map.mp hu
  rw [h.line_header] at hheader
  obtain rfl : lower h.name = name := (Prod.mk.inj (Option.some.inj hheader)).1
  exact hexternal h (List.mem_of_mem_take hh)

theorem written_vars (hshort : ∀ h ∈ headers, h.line.bytes.length < 2 ^ 31) :
    header_vars (header_lines (written cr t headers rest)) = known_vars headers := by
  have hfits : ((headers.take (MAX_HEADERS - 1)).map Header.line).filter fits =
      (headers.take (MAX_HEADERS - 1)).map Header.line := by
    rw [List.filter_eq_self]
    intro u hu
    obtain ⟨h, hh, rfl⟩ := List.mem_map.mp hu
    obtain ⟨c, B, hB, -⟩ := h.value_starts
    exact fits_of_short (hshort h (List.mem_of_mem_take hh)) (by simp [h.line_value, hB])
  unfold header_vars known_vars
  rw [(written_lines cr ht rest).2, hfits, List.filterMap_map]
  exact List.filterMap_eq_map_iff_forall_eq_some.mpr fun h _ => h.line_header

end Written

/-! ## Forms -/

theorem body_all {P : Byte → Prop} (hamp : P (ch '&')) (hequals : P (ch '='))
    (hform : ∀ b, ∀ c ∈ form_byte b, P c) (fields : List Field) : ∀ c ∈ body fields, P c := by
  have htext (p : Field) : ∀ c ∈ p.text, P c := by
    have hpart (text : Bytes) : ∀ c ∈ form text, P c := by
      intro c hc
      obtain ⟨b, -, hb⟩ := List.mem_flatMap.mp hc
      exact hform b c hb
    intro c hc
    rcases List.mem_append.mp hc with hc | hc
    · exact hpart _ c hc
    · rcases List.mem_cons.mp hc with rfl | hc
      · exact hequals
      · exact hpart _ c hc
  unfold body
  induction fields with
  | nil => simp
  | cons p fields ih =>
    cases fields with
    | nil => simpa using htext p
    | cons q fields =>
      intro c hc
      rw [List.map_cons, List.map_cons, List.intercalate_cons_cons, List.mem_append,
        List.mem_append, List.mem_singleton] at hc
      rcases hc with (hc | rfl) | hc
      · exact htext p c hc
      · exact hamp
      · exact ih c hc

theorem form_byte_line : ∀ b, (form_byte b).all (fun c => c ≠ CR ∧ c ≠ LF ∧ c ≠ ch ' ') = true :=
  forall_byte (by decide +kernel)

theorem body_line (fields : List Field) : ∀ c ∈ body fields, c ≠ CR ∧ c ≠ LF ∧ c ≠ ch ' ' :=
  body_all (by decide) (by decide) (fun b c hc =>
    of_decide_eq_true (List.all_eq_true.mp (form_byte_line b) c hc)) fields

/-- The values that the fields have for a key, which is a name as it is sent. -/
def sent (fields : List Field) (key : CString) : List CString :=
  (fields.filter fun p => form_key p.name = key).map (·.value)

/-! ## Requests -/

/-- A request. The method may be in any case. -/
structure Message where
  req_type : httpp_request_type_e
  name : CString
  method : CString
  path : CString
  query : Option (List Field)
  protocol : CString
  number : CString
  headers : List Header
  form : List Field
  method_known : Method method req_type name
  path_solid : Solid path.bytes
  path_line : OneLine path
  path_ends : ch '?' ∉ path.bytes
  protocol_solid : Solid protocol.bytes
  protocol_line : OneLine protocol
  protocol_ends : ch '/' ∉ protocol.bytes
  number_solid : Solid number.bytes
  number_line : OneLine number
  external : ∀ h ∈ headers, ¬ Internal (lower h.name)

theorem Method.letters {M name : CString} {req_type : httpp_request_type_e}
    (h : Method M req_type name) :
    ∀ c ∈ M.bytes, c ≠ CR ∧ c ≠ LF ∧ c ≠ ch ' ' := by
  have hall : ∀ m ∈ methods, ∀ c ∈ m.2.bytes.map tolower, c ≠ tolower CR ∧ c ≠ tolower LF ∧
      c ≠ tolower (ch ' ') := by
    decide +kernel
  intro c hc
  obtain ⟨hcr, hlf, hspace⟩ := hall _ h.1 (tolower c) (h.2 ▸ List.mem_map_of_mem hc)
  exact ⟨fun heq => hcr (heq ▸ rfl), fun heq => hlf (heq ▸ rfl), fun heq => hspace (heq ▸ rfl)⟩

namespace Message

variable (m : Message)

def query_text : Bytes :=
  match m.query with
  | none => []
  | some fields => ch '?' :: body fields

theorem query_nulFree : 0 ∉ m.query_text := by
  unfold query_text
  cases m.query with
  | none => exact List.not_mem_nil
  | some fields =>
    rw [List.mem_cons, not_or]
    exact ⟨by decide, body_clean fields⟩

theorem query_line : ∀ c ∈ m.query_text, c ≠ CR ∧ c ≠ LF ∧ c ≠ ch ' ' := by
  unfold query_text
  cases m.query with
  | none => simp
  | some fields => exact List.forall_mem_cons.mpr ⟨by decide, body_line fields⟩

theorem uri_nulFree : 0 ∉ m.path.bytes ++ m.query_text := by
  rw [List.mem_append, not_or]
  exact ⟨m.path.nulFree, m.query_nulFree⟩

/-- The URI as it is sent. -/
def uri : CString := ⟨m.path.bytes ++ m.query_text, m.uri_nulFree⟩

theorem line_nulFree :
    0 ∉ m.method.bytes ++
      ch ' ' :: (m.uri.bytes ++ ch ' ' :: (m.protocol.bytes ++ ch '/' :: m.number.bytes)) := by
  simp only [List.mem_append, List.mem_cons, not_or]
  exact ⟨m.method.nulFree, by decide, m.uri_nulFree, by decide, m.protocol.nulFree, by decide,
    m.number.nulFree⟩

def line : CString :=
  ⟨m.method.bytes ++
    ch ' ' :: (m.uri.bytes ++ ch ' ' :: (m.protocol.bytes ++ ch '/' :: m.number.bytes)),
  m.line_nulFree⟩

/-- The request as it is sent. -/
def text (cr : Bool) : Bytes := written cr m.line m.headers (body m.form)

theorem line_oneLine : OneLine m.line := by
  have hmethod := m.method_known.letters
  have hquery := m.query_line
  unfold OneLine line uri
  simp only [List.mem_append, List.mem_cons, not_or]
  refine ⟨⟨fun h => (hmethod CR h).1 rfl, by decide,
    ⟨m.path_line.1, fun h => (hquery CR h).1 rfl⟩, by decide,
    m.protocol_line.1, by decide, m.number_line.1⟩, ⟨fun h => (hmethod LF h).2.1 rfl, by decide,
    ⟨m.path_line.2, fun h => (hquery LF h).2.1 rfl⟩, by decide, m.protocol_line.2, by
      decide, m.number_line.2⟩⟩

theorem line_form : Form m.line m.method m.uri m.protocol m.number where
  line := ⟨0, 0, 0, by simp [line, spaces]⟩
  method :=
  ⟨⟨m.method_known.ne_nil, fun h => (m.method_known.letters _ h).2.2 rfl⟩, m.req_type, m.name,
    m.method_known⟩
  uri := by
    refine ⟨List.append_ne_nil_of_left_ne_nil m.path_solid.1 _, ?_⟩
    show ch ' ' ∉ m.path.bytes ++ m.query_text
    rw [List.mem_append, not_or]
    exact ⟨m.path_solid.2, fun h => (m.query_line _ h).2.2 rfl⟩
  protocol := ⟨m.protocol_solid, m.protocol_ends⟩
  version := m.number_solid

end Message

/-! ## The parameters of a query -/

section Queries

variable {parser : http_parser_t} {f : CString → List CString}

theorem Beside.trans {parser1 parser2 : http_parser_t} (h : Beside parser parser1)
    (h' : Beside parser1 parser2) :
    Beside parser parser2 := ⟨h'.1.trans h.1, h'.2.trans h.2⟩

/-- The values that the query of a URI has for a key. -/
def asked (uri : CString) (key : CString) : List CString :=
  if ch '?' ∈ uri.bytes then values_of (elements (uri.behind (ch '?')).bytes) key else []

/-- The values of a query come behind those that are there, and the body is not touched. -/
def Asks (parser : http_parser_t) (f : CString → List CString) (uri : CString)
    (new : http_parser_t) : Prop :=
  new.postvars = parser.postvars ∧ Maps new.queryvars fun key => f key ++ asked uri key

theorem Asks.beside {uri : CString} {new new' : http_parser_t} (h : Asks parser f uri new)
    (h' : Beside new new') :
    Asks parser f uri new' := ⟨h'.2.trans h.1, h'.1 ▸ h.2⟩

end Queries

/-! ## The way back -/

namespace Message

variable (m : Message)

end Message

theorem post_nulFree : 0 ∉ ascii "POST" := by decide

/-- A search with a comment behind it. -/
def search : Message where
  req_type := httpp_req_post
  name := ⟨ascii "POST", post_nulFree⟩
  method := ⟨ascii "Post", by decide⟩
  path := slash
  query := some [⟨⟨ascii "q", by decide⟩, ⟨ascii "x y", by decide⟩, by decide, by decide⟩]
  protocol := http
  number := one_zero
  headers := [⟨⟨ascii "Content-Type", by decide⟩, urlencoded, by decide, by decide, by decide,
    ch 'a', ascii "pplication/x-www-form-urlencoded", by decide, by decide⟩]
  form := [⟨⟨ascii "c", by decide⟩, ⟨ascii "=", by decide⟩, by decide, by decide⟩]
  method_known := by unfold Method; decide
  path_solid := by decide
  path_line := by decide
  path_ends := by decide
  protocol_solid := by decide
  protocol_line := by decide
  protocol_ends := by decide
  number_solid := by decide
  number_line := by decide
  external := by decide

example :
    search.text false =
      ascii "Post /?q=x+y HTTP/1.0\nContent-Type: application/x-www-form-urlencoded\n\nc=%3D" := by
  decide +kernel

structure Reply where
  version : CString
  code : CString
  message : CString
  headers : List Header
  version_word : ch ' ' ∉ version.bytes
  version_line : OneLine version
  code_solid : Solid code.bytes
  code_line : OneLine code
  message_line : OneLine message
  message_starts : ∃ c B, message.bytes = c :: B ∧ c ≠ ch ' '
  external : ∀ h ∈ headers, ¬ Internal (lower h.name)

namespace Reply

variable (m : Reply)

theorem line_nulFree :
    0 ∉ m.version.bytes ++ ch ' ' :: (m.code.bytes ++ ch ' ' :: m.message.bytes) := by
  simp only [List.mem_append, List.mem_cons, not_or]
  exact ⟨m.version.nulFree, by decide, m.code.nulFree, by decide, m.message.nulFree⟩

def line : CString :=
  ⟨m.version.bytes ++ ch ' ' :: (m.code.bytes ++ ch ' ' :: m.message.bytes), m.line_nulFree⟩

/-- The response as it is sent, with its content. -/
def text (cr : Bool) (content : Bytes) : Bytes := written cr m.line m.headers content

theorem line_oneLine : OneLine m.line := by
  unfold OneLine line
  simp only [List.mem_append, List.mem_cons, not_or]
  exact ⟨⟨m.version_line.1, by decide, m.code_line.1, by decide, m.message_line.1⟩,
    m.version_line.2, by decide, m.code_line.2, by decide, m.message_line.2⟩

theorem line_form : StatusForm m.line m.version m.code m.message where
  line := ⟨0, 0, by simp [line, spaces]⟩
  version := m.version_word
  code := m.code_solid
  message := m.message_starts

theorem line_seen (hline : m.line.bytes.length < 2 ^ 31) :
    message_start m.line m.message < seen m.line := by
  obtain ⟨c, B, hB, -⟩ := m.message_starts
  have hlen :
      m.line.bytes.length = m.version.bytes.length +
      (m.code.bytes.length + (m.message.bytes.length + 1) + 1) := by
    simp [line]
  have hpos : 0 < m.message.bytes.length := by simp [hB]
  unfold message_start seen
  rw [int_of_size_of_lt hline, Int.toNat_natCast]
  omega

end Reply

theorem status_vars_internal (code message uri : CString) :
    ∀ v ∈ status_vars code message uri, Internal v.1 := by
  have hall :
      ∀ n ∈ [HTTPP_VAR_ERROR_CODE, HTTPP_VAR_ERROR_MESSAGE, HTTPP_VAR_URI, HTTPP_VAR_REQ_TYPE],
      Internal n := by decide
  intro v hv
  apply hall
  unfold status_vars at hv
  split_ifs at hv
  · simp only [List.cons_append, List.nil_append, List.mem_cons, List.not_mem_nil, or_false] at hv
    rcases hv with rfl | rfl | rfl | rfl <;> simp
  · simp only [List.append_nil, List.cons_append, List.nil_append, List.mem_cons, List.not_mem_nil,
      or_false] at hv
    rcases hv with rfl | rfl | rfl <;> simp

/-- **Responses.** What a server sends comes back: the code and the message of the status line, and
the headers that fit in the table of lines. -/
theorem response_comes_back (vars queryvars postvars : Pool) (m : Reply) (cr : Bool)
    (content : Bytes) (uri : CString) (hline : m.line.bytes.length < 2 ^ 31)
    (hheaders : ∀ h ∈ m.headers, h.line.bytes.length < 2 ^ 31) :
    ∃ parser0 parser, httpp_create vars queryvars postvars = .ok parser0 ∧
      httpp_parse_response parser0 (some (m.text cr content)) (m.text cr content).length
        (some uri) = .ok (1, parser) ∧
      StatusFacts parser m.code m.message uri ∧
      ∀ n, ¬ Internal n →
      httpp_getvar parser (some n) = .ok (last_value (known_vars m.headers) n) := by
  obtain ⟨parser0, hnew, -, hempty, -⟩ := create_parser_spec vars queryvars postvars
  have hkept : Kept parser0 [] := hempty
  have hwords :
    status_words (seen (first_line (m.text cr content))) (first_line (m.text cr content)) =
      some (m.code, m.message) := by
    rw [Reply.text, (written_lines cr m.line_oneLine content).1]
    exact m.line_form.words (m.line_seen hline)
  rcases hkept.parse_response (m.text cr content) uri
    with ⟨hnone, -⟩ | ⟨code, message, vars', hsome, hrun, hkept'⟩
  · rw [hwords] at hnone
    cases hnone
  · rw [hwords] at hsome
    obtain ⟨rfl, rfl⟩ := Prod.mk.inj (Option.some.inj hsome)
    refine ⟨parser0, _, hnew, hrun,
      hkept'.status_facts (written_plain cr m.line_oneLine content m.external), ?_⟩
    intro n hn
    have hnone : last_value (status_vars m.code m.message uri) n = none := by
      apply last_value_eq_none
      rintro v hv rfl
      exact hn (status_vars_internal m.code m.message uri v hv)
    rw [hkept'.getvar, List.nil_append, last_change_settings, last_value_append, hnone,
      Option.or_none]
    exact congrArg (fun vars => Except.ok (last_value vars n))
      (written_vars cr m.line_oneLine content hheaders)

def not_found : Reply where
  version := ⟨ascii "HTTP/1.0", by decide⟩
  code := ⟨ascii "404", by decide⟩
  message := ⟨ascii "Not found", by decide⟩
  headers := search.headers
  version_word := by decide
  version_line := by decide
  code_solid := by decide
  code_line := by decide
  message_line := by decide
  message_starts := ⟨ch 'N', ascii "ot found", by decide, by decide⟩
  external := search.external

theorem response_comes_back_not_found :
    ∃ parser0 parser, httpp_create ⟨id, id⟩ ⟨id, id⟩ ⟨id, id⟩ = .ok parser0 ∧
      httpp_parse_response parser0 (some (not_found.text false [CR, LF]))
        (not_found.text false [CR, LF]).length (some slash) = .ok (1, parser) ∧
      StatusFacts parser not_found.code not_found.message slash ∧
      ∀ n, ¬ Internal n →
      httpp_getvar parser (some n) = .ok (last_value (known_vars not_found.headers) n) :=
  response_comes_back ⟨id, id⟩ ⟨id, id⟩ ⟨id, id⟩ not_found false [CR, LF] slash (by decide +kernel)
    (by decide +kernel)

end Httpp
