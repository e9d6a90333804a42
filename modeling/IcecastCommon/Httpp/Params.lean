import IcecastCommon.Httpp.Keys
import IcecastCommon.Httpp.Unescape

/-!
# Parameters

What the calls that set a parameter leave in the trees of the query and of the body, and what the
calls that look in both trees find there.
-/

namespace Httpp

open Lib Avl

/-! ## Setting -/

theorem set_param_refused (tree : var_tree) (name : CString) {value : CString}
    (h : unescaped value.bytes = none) :
    _httpp_set_param tree (some name) (some value) = .ok tree := by
  have hnone : unescape value.bytes = none := by
    rw [unescaped_eq] at h
    exact Option.map_eq_none_iff.mp h
  have hrun : url_unescape value.block 0 value.bytes.length = .ok none := by
    have hblock : value.block.drop 0 = value.bytes ++ [0] := rfl
    have hspec := url_unescape_spec hblock
    rw [hnone] at hspec
    exact hspec
  unfold _httpp_set_param
  simp only [hrun, ok_bind, Option.mapM_none]
  rfl

theorem set_param_decoded {tree : var_tree} {f : CString → List CString} (h : Maps tree f)
    (name : CString) {value s : CString} (hs : unescaped value.bytes = some s) :
    ∃ tree', _httpp_set_param tree (some name) (some value) = .ok tree' ∧
      Maps tree' (Function.update f name [s]) := by
  rw [unescaped_eq] at hs
  obtain ⟨v, hv, rfl⟩ := Option.map_eq_some_iff.mp hs
  obtain ⟨tree', hrun, hmaps⟩ := replace_param_spec h name (CString.cut v)
  exact ⟨tree', ((handed_cut hv).1 tree name value rfl).trans hrun, hmaps⟩

/-- The tree for a name and a value: the new tree, and what it stands for. -/
def Sets (tree : var_tree) (f : CString → List CString) (name value : CString) (tree' : var_tree) :
    Prop :=
  match unescaped value.bytes with
  | some s => Multimap tree' (Function.update f name [s])
  | none => tree' = tree

theorem Maps.sets {tree : var_tree} {f : CString → List CString} (h : Maps tree f)
    (name value : CString) :
    ∃ tree', _httpp_set_param tree (some name) (some value) = .ok tree' ∧
      Sets tree f name value tree' := by
  unfold Sets
  cases hs : unescaped value.bytes with
  | none => exact ⟨tree, set_param_refused tree name hs, rfl⟩
  | some s =>
    obtain ⟨tree', hrun, hmaps⟩ := set_param_decoded h name hs
    exact ⟨tree', hrun, hmaps.multimap⟩

/-! ## Looking up -/

/-- The entry is in the tree and has these values. -/
def Entry (tree : var_tree) (name : CString) (var : http_var_t) (values : List CString) : Prop :=
  _httpp_get_param_var tree name = .ok (some var) ∧ var.name = name ∧
  tree.values.load var.value = .ok values

theorem Maps.entry {tree : var_tree} {f : CString → List CString} (h : Maps tree f)
    (name : CString) :
    (∃ var value values, Entry tree name var (value :: values) ∧
      _httpp_get_param tree name = .ok (some value)) ∨
      (_httpp_get_param_var tree name = .ok none ∧ _httpp_get_param tree name = .ok none) := by
  obtain ⟨S, hS, he⟩ := h.entries
  rcases get_param_var_spec hS he name with ⟨v, hv, rfl, hrun⟩ | ⟨hnone, hrun⟩
  · left
    obtain ⟨a, ha, hget⟩ := he.stored v hv
    obtain ⟨value, values, hvalues⟩ :=
      List.exists_cons_of_ne_nil ((he.filled v.name).mpr ⟨v, hv, rfl⟩)
    refine ⟨v, value, values, ⟨hrun, rfl, ?_⟩, ?_⟩
    · rw [ha, Memory.load_eq hget, hvalues]
    · rw [h.get_param, hvalues]
      rfl
  · right
    refine ⟨hrun, ?_⟩
    rw [h.get_param, hnone]
    rfl

/-- The entry in `postvars`, or the one in `queryvars` when there is none. -/
def ParamEntry (parser : http_parser_t) (name : CString) (var : http_var_t)
    (values : List CString) : Prop :=
  Entry parser.postvars name var values ∨
    _httpp_get_param_var parser.postvars name = .ok none ∧ Entry parser.queryvars name var values

theorem get_param_entry {parser : http_parser_t} (h : Tidy parser) (name : CString) :
    (httpp_get_param_var parser name = .ok none ∧ httpp_get_param parser name = .ok none) ∨
      ∃ var value values, httpp_get_param_var parser name = .ok (some var) ∧
        ParamEntry parser name var (value :: values) ∧
        httpp_get_param parser name = .ok (some value) := by
  obtain ⟨f, hf⟩ := h.postvars
  obtain ⟨g, hg⟩ := h.queryvars
  unfold httpp_get_param_var httpp_get_param
  rcases hf.entry name with ⟨var, value, values, hentry, hparam⟩ | ⟨hvar, hparam⟩
  · right
    refine ⟨var, value, values, ?_, Or.inl hentry, ?_⟩
    · rw [hentry.1, ok_bind]
      rfl
    · rw [hparam, ok_bind]
      rfl
  · rw [hvar, hparam, ok_bind, ok_bind]
    rcases hg.entry name with ⟨var, value, values, hentry, hquery⟩ | ⟨hquery, hquery'⟩
    · exact Or.inr ⟨var, value, values, hentry.1, Or.inr ⟨hvar, hentry⟩, hquery⟩
    · exact Or.inl ⟨hquery, hquery'⟩

/-- A parameter that was set is found again, and the parameters of the other kind are as before. -/
theorem set_then_get {parser : http_parser_t} (h : Tidy parser) (name : CString) {value s : CString}
    (hs : unescaped value.bytes = some s) :
    (∃ parser', httpp_set_query_param parser (some name) (some value) = .ok parser' ∧
      httpp_get_query_param parser' name = .ok (some s) ∧
      ∀ n, httpp_get_post_param parser' n = httpp_get_post_param parser n) ∧
    ∃ parser', httpp_set_post_param parser (some name) (some value) = .ok parser' ∧
      httpp_get_post_param parser' name = .ok (some s) ∧
      ∀ n, httpp_get_query_param parser' n = httpp_get_query_param parser n := by
  obtain ⟨f, hf⟩ := h.queryvars
  obtain ⟨g, hg⟩ := h.postvars
  obtain ⟨query, hquery, hqueryvars⟩ := set_param_decoded hf name hs
  obtain ⟨post, hpost, hpostvars⟩ := set_param_decoded hg name hs
  refine ⟨⟨{ parser with queryvars := query }, ?_, ?_, fun _ => rfl⟩,
    { parser with postvars := post }, ?_, ?_, fun _ => rfl⟩
  · simp only [httpp_set_query_param, hquery, ok_bind, pure_eq_ok]
  · rw [httpp_get_query_param, hqueryvars.get_param, Function.update_self]
    rfl
  · simp only [httpp_set_post_param, hpost, ok_bind, pure_eq_ok]
  · rw [httpp_get_post_param, hpostvars.get_param, Function.update_self]
    rfl

/-- **Parameters.** In every state, setting one replaces the values of its name in one tree, or
changes nothing, and the value that is found is the first one of the entry that is found. -/
theorem set_params (vars queryvars postvars : Pool) (calls : List ParserCall)
    {parser : http_parser_t}
    (hrun : (do calls.foldlM parser_call (← httpp_create vars queryvars postvars)) = .ok parser)
    (name : CString) :
    (∃ f g, Multimap parser.queryvars f ∧ Multimap parser.postvars g ∧
      ∀ value,
        (∃ tree, httpp_set_query_param parser (some name) (some value) =
        .ok { parser with queryvars := tree } ∧
          Sets parser.queryvars f name value tree) ∧
        ∃ tree, httpp_set_post_param parser (some name) (some value) =
        .ok { parser with postvars := tree } ∧
          Sets parser.postvars g name value tree) ∧
    ((httpp_get_param_var parser name = .ok none ∧ httpp_get_param parser name = .ok none) ∨
      ∃ var value values, httpp_get_param_var parser name = .ok (some var) ∧
        ParamEntry parser name var (value :: values) ∧
        httpp_get_param parser name = .ok (some value)) := by
  have htidy := calls_tidy hrun
  obtain ⟨f, hf⟩ := htidy.queryvars
  obtain ⟨g, hg⟩ := htidy.postvars
  refine ⟨⟨f, g, hf.multimap, hg.multimap, ?_⟩, get_param_entry htidy name⟩
  intro value
  obtain ⟨query, hquery, hsetquery⟩ := hf.sets name value
  obtain ⟨post, hpost, hsetpost⟩ := hg.sets name value
  refine ⟨⟨query, ?_, hsetquery⟩, post, ?_, hsetpost⟩
  · simp only [httpp_set_query_param, hquery, ok_bind, pure_eq_ok]
  · simp only [httpp_set_post_param, hpost, ok_bind, pure_eq_ok]

def one_param : List ParserCall := [.set_query_param (some HTTPP_VAR_URI) (some HTTPP_VAR_VERSION)]

theorem set_params_one : ∃ parser,
    (do one_param.foldlM parser_call (← httpp_create ⟨id, id⟩ ⟨id, id⟩ ⟨id, id⟩)) = .ok parser ∧
      (∃ f g, Multimap parser.queryvars f ∧ Multimap parser.postvars g ∧
        ∀ value,
          (∃ tree, httpp_set_query_param parser (some HTTPP_VAR_URI) (some value) =
              .ok { parser with queryvars := tree } ∧
              Sets parser.queryvars f HTTPP_VAR_URI value tree) ∧
          ∃ tree, httpp_set_post_param parser (some HTTPP_VAR_URI) (some value) =
          .ok { parser with postvars := tree } ∧
            Sets parser.postvars g HTTPP_VAR_URI value tree) ∧
      ((httpp_get_param_var parser HTTPP_VAR_URI = .ok none ∧
      httpp_get_param parser HTTPP_VAR_URI = .ok none) ∨
        ∃ var value values, httpp_get_param_var parser HTTPP_VAR_URI = .ok (some var) ∧
          ParamEntry parser HTTPP_VAR_URI var (value :: values) ∧
          httpp_get_param parser HTTPP_VAR_URI = .ok (some value)) :=
  ⟨_, rfl, set_params ⟨id, id⟩ ⟨id, id⟩ ⟨id, id⟩ one_param rfl HTTPP_VAR_URI⟩

end Httpp
