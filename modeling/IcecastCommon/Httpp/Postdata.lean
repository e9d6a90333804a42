import IcecastCommon.Httpp.Form
import IcecastCommon.Httpp.Grammar
import IcecastCommon.Httpp.Keys

/-!
# Bodies

What `httpp_parse_postdata` does with any body. The header that it compares is NULL when the request
had no content type.
-/

namespace Httpp

open Lib Avl

/-- Memory at `body_data` that may be read: `len` bytes, and the first one in any case. -/
def Readable (body_data : Option Bytes) (len : Nat) : Prop :=
  ∀ block, body_data = some block → block ≠ [] ∧ len ≤ block.length

theorem Maps.parse_body {tree : var_tree} {f : CString → List CString} (h : Maps tree f)
    {body_data : Option Bytes} {len : Nat} (hbody : Readable body_data len) :
    ∃ tree', parse_query tree body_data len = .ok tree' := by
  cases body_data with
  | none => exact ⟨tree, rfl⟩
  | some block =>
    obtain ⟨hne, hlen⟩ := hbody block rfl
    obtain ⟨c, block, rfl⟩ := List.exists_cons_of_ne_nil hne
    have hloop :=
      parse_query_loop_spec ((c :: block).take len) [] []
        ((c :: block).drop len) tree none List.not_mem_nil
    have htake : ((c :: block).take len).length = len := List.length_take_of_le hlen
    rw [modifyHead_nil, List.nil_append, List.nil_append, List.take_append_drop, htake] at hloop
    simp only [List.length_nil, Nat.zero_add] at hloop
    obtain ⟨tree', hrun, -⟩ := h.store_elements (elements ((c :: block).take len))
    rw [hrun] at hloop
    have hread : read (c :: block) 0 = .ok c := rfl
    unfold parse_query
    simp only [hread, ok_bind]
    by_cases hc : c = 0
    · rw [if_pos hc]
      exact ⟨tree, rfl⟩
    · rw [if_neg hc]
      exact ⟨tree', hloop⟩

/-- The content type says that the body is a form. -/
def IsForm (header : Option CString) : Prop :=
  ∃ s, header = some s ∧ s.bytes.map tolower = urlencoded.bytes

/-- What `httpp_parse_postdata` should do. -/
def ParsesBody (parser : http_parser_t) (header : Option CString)
    (result : C (Int × http_parser_t)) : Prop :=
  (IsForm header ∧ ∃ postvars, result = .ok (0, { parser with postvars })) ∨
    (¬ IsForm header ∧ result = .ok (-1, parser))

theorem isForm_iff (s : CString) :
    IsForm (some s) ↔ strcasecmp s.bytes (ascii "application/x-www-form-urlencoded") = 0 := by
  have hlower : urlencoded.bytes.map tolower = urlencoded.bytes := by decide +kernel
  have hcompare := strcasecmp_eq_zero s urlencoded
  rw [hlower] at hcompare
  constructor
  · rintro ⟨s', hs', hform⟩
    cases hs'
    exact hcompare.mpr hform
  · intro h
    exact ⟨s, rfl, hcompare.mp h⟩

/-- **Bodies.** In every state and for every body the content type decides what happens, if there is
one. -/
theorem parses_body_iff (vars queryvars postvars : Pool) (calls : List ParserCall)
    {parser : http_parser_t}
    (hrun : (do calls.foldlM parser_call (← httpp_create vars queryvars postvars)) = .ok parser)
    (body_data : Option Bytes) (len : Nat) (hbody : Readable body_data len) :
    ∃ header, httpp_getvar parser (some content_type) = .ok header ∧
      (ParsesBody parser header (httpp_parse_postdata parser body_data len) ↔ header ≠ none) := by
  have htidy := calls_tidy hrun
  obtain ⟨f, hf⟩ := htidy.vars
  obtain ⟨g, hg⟩ := htidy.postvars
  obtain ⟨postvars', hparse⟩ := hg.parse_body hbody
  have hget : httpp_getvar parser (some content_type) = .ok (f content_type).head? :=
    hf.get_param content_type
  refine ⟨_, hget, ?_⟩
  unfold httpp_parse_postdata
  change httpp_getvar parser (some ⟨ascii "content-type", by decide⟩) = _ at hget
  rw [hget, ok_bind]
  cases (f content_type).head? with
  | none =>
    refine iff_of_false ?_ (by simp)
    rintro (⟨-, postvars, h⟩ | ⟨-, h⟩)
    · cases h
    · cases h
  | some header =>
    refine iff_of_true ?_ (by simp)
    unfold ParsesBody
    rw [isForm_iff]
    dsimp only
    split_ifs with hform
    · exact Or.inr ⟨hform, rfl⟩
    · refine Or.inl ⟨not_not.mp hform, postvars', ?_⟩
      rw [hparse]
      rfl

def form_header : List ParserCall := [.setvar (some content_type) (some urlencoded)]

theorem parses_body_iff_form : ∃ parser header,
    (do form_header.foldlM parser_call (← httpp_create ⟨id, id⟩ ⟨id, id⟩ ⟨id, id⟩)) = .ok parser ∧
      httpp_getvar parser (some content_type) = .ok header ∧
      (ParsesBody parser header (httpp_parse_postdata parser (some (ascii "a=1")) 3) ↔
      header ≠ none) := by
  obtain ⟨header, h⟩ := parses_body_iff ⟨id, id⟩ ⟨id, id⟩ ⟨id, id⟩ form_header rfl
    (some (ascii "a=1")) 3 (by
      rintro block ⟨⟩
      decide)
  exact ⟨_, header, rfl, h⟩

/-- A parser without a content type. -/
theorem parses_body_null :
    ¬ ∀ (vars queryvars postvars : Pool) (calls : List ParserCall) (parser : http_parser_t),
      (do calls.foldlM parser_call (← httpp_create vars queryvars postvars)) = .ok parser →
        ∀ (body_data : Option Bytes) (len : Nat), Readable body_data len →
          ∃ header, httpp_getvar parser (some content_type) = .ok header ∧
            ParsesBody parser header (httpp_parse_postdata parser body_data len) := by
  intro h
  have hbody : Readable (some (ascii "a=1")) 3 := by
    rintro block ⟨⟩
    decide
  obtain ⟨header, hget, hparses⟩ :=
    h ⟨id, id⟩ ⟨id, id⟩ ⟨id, id⟩ [] _ rfl (some (ascii "a=1")) 3 hbody
  obtain ⟨header', hget', hiff⟩ :=
    parses_body_iff ⟨id, id⟩ ⟨id, id⟩ ⟨id, id⟩ [] rfl (some (ascii "a=1")) 3 hbody
  rw [hget] at hget'
  cases hget'
  cases hget
  exact absurd rfl (hiff.mp hparses)

end Httpp
