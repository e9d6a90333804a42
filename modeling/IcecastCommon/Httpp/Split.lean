import IcecastCommon.Httpp.Keys
import IcecastCommon.Httpp.Unescape

/-!
# Where a query is split

A query is split at every `&` before its values are decoded, and an element at its last `=`. Two
things follow: the text behind a later `=` ends a key, and a fragment can have parameters.
-/

namespace Httpp

open Lib Avl

/-! ## What a tree stands for -/

theorem Multimap.unique {tree : var_tree} {f g : CString → List CString} (hf : Multimap tree f)
    (hg : Multimap tree g) :
    f = g := by
  obtain ⟨S, hS, -, hload, hfilled⟩ := hf
  obtain ⟨S', ⟨root, t, hroot, hheld, hkeys⟩, -, hload', hfilled'⟩ := hg
  have hsame : S = S' :=
    List.map_injective_iff.mpr (Option.some_injective _) ((hS.unique hroot hheld).trans hkeys)
  subst hsame
  funext key
  by_cases hkey : ∃ v ∈ S, v.name = key
  · obtain ⟨v, hv, rfl⟩ := hkey
    exact Except.ok.inj ((hload v hv).symm.trans (hload' v hv))
  · have hnone : ∀ {h : CString → List CString}, (∀ key, h key ≠ [] ↔ ∃ v ∈ S, v.name = key) →
        h key = [] := by
      intro h hh
      by_contra hne
      exact hkey ((hh key).mp hne)
    rw [hnone hfilled, hnone hfilled']

theorem Maps.parse_query {tree : var_tree} {f : CString → List CString} (h : Maps tree f)
    (q : CString) :
    ∃ tree', Httpp.parse_query tree (some q.block) q.bytes.length = .ok tree' ∧
      Maps tree' fun key => f key ++ values_of (elements q.bytes) key := by
  obtain ⟨tree', hrun, hmaps⟩ := h.store_elements (elements q.bytes)
  exact ⟨tree', (parse_query_spec tree q []).trans hrun, hmaps⟩

theorem values_of_append (A B : List Bytes) (key : CString) :
    values_of (A ++ B) key = values_of A key ++ values_of B key :=
  List.filterMap_append

/-- The value of one parameter for a key. -/
def value_for (parameter : Option (CString × CString)) (key : CString) : List CString :=
  (parameter.bind fun x => if x.1 = key then some x.2 else none).toList

theorem values_of_cons (e : Bytes) (B : List Bytes) (key : CString) :
    values_of (e :: B) key = value_for (element e) key ++ values_of B key := by
  unfold values_of value_for
  rw [List.filterMap_cons]
  cases (element e).bind fun x => if x.1 = key then some x.2 else none <;> rfl

theorem mem_value_for {p : Option (CString × CString)} {key value : CString} :
    value ∈ value_for p key ↔ p = some (key, value) := by
  unfold value_for
  rw [Option.mem_toList, Option.bind_eq_some_iff]
  constructor
  · rintro ⟨x, rfl, hx⟩
    split_ifs at hx with hkey
    rw [← hkey, ← Option.some.inj hx]
  · rintro rfl
    exact ⟨_, rfl, if_pos rfl⟩

theorem value_for_inj {p q : Option (CString × CString)}
    (h : ∀ key, value_for p key = value_for q key) : p = q := by
  apply Option.ext
  rintro ⟨key, value⟩
  rw [← mem_value_for, h, mem_value_for]

/-! ## The first `=` -/

/-- The text in front of the first `=`, and the decoded text behind it. -/
def first_split (e : Bytes) : Option (CString × CString) :=
  let key := e.takeWhile (· != ch '=')
  let text := (e.dropWhile (· != ch '=')).drop 1
  if key = [] ∨ text = [] then none else (unescaped text).map fun value => (CString.cut key, value)

theorem first_split_append {key : Bytes} (hkey : ch '=' ∉ key) (text : Bytes) :
    first_split (key ++ ch '=' :: text) =
      if key = [] ∨ text = [] then none
      else (unescaped text).map fun value => (CString.cut key, value) := by
  have htake : (key ++ ch '=' :: text).takeWhile (· != ch '=') = key := by
    rw [List.takeWhile_append_of_pos (all_ne hkey), List.takeWhile_cons_of_neg (by simp),
      List.append_nil]
  have hdrop : ((key ++ ch '=' :: text).dropWhile (· != ch '=')).drop 1 = text := by
    rw [List.dropWhile_append_of_pos (all_ne hkey), List.dropWhile_cons_of_neg (by simp)]
    rfl
  unfold first_split
  simp only [htake, hdrop]

theorem first_split_some {e : Bytes} {x : CString × CString} (h : first_split e = some x) :
    ∃ key text, e = key ++ ch '=' :: text ∧ ch '=' ∉ key ∧ key ≠ [] ∧ text ≠ [] := by
  by_cases hmem : ch '=' ∈ e
  · obtain ⟨key, text, rfl, hkey⟩ := List.eq_append_cons_of_mem hmem
    rw [first_split_append hkey] at h
    split_ifs at h with hnil
    rw [not_or] at hnil
    exact ⟨key, text, rfl, hkey, hnil.1, hnil.2⟩
  · unfold first_split at h
    simp [dropWhile_nil_iff.mpr hmem] at h

theorem exists_last_equals {text : Bytes} (h : ch '=' ∈ text) :
    ∃ A B, text = A ++ ch '=' :: B ∧ ch '=' ∉ B := by
  obtain ⟨B, A, htext, hB⟩ := List.eq_append_cons_of_mem (List.mem_reverse.mpr h)
  refine ⟨A.reverse, B.reverse, ?_, fun hmem => hB (List.mem_reverse.mp hmem)⟩
  rw [← List.reverse_reverse text, htext]
  simp

theorem element_first_iff {e : Bytes} (hnul : 0 ∉ e) {x : CString × CString}
    (h : first_split e = some x) :
    element e = some x ↔ e.count (ch '=') = 1 := by
  obtain ⟨key, text, rfl, hkey, hkey0, htext0⟩ := first_split_some h
  rw [first_split_append hkey, if_neg (not_or.mpr ⟨hkey0, htext0⟩)] at h
  obtain ⟨value, hvalue, rfl⟩ := Option.map_eq_some_iff.mp h
  rw [List.count_append, List.count_cons_self, List.count_eq_zero_of_not_mem hkey]
  by_cases htext : ch '=' ∈ text
  · obtain ⟨A, B, rfl, hB⟩ := exists_last_equals htext
    have hcount := List.count_pos_iff.mpr htext
    have hlast : key ++ ch '=' :: (A ++ ch '=' :: B) = (key ++ ch '=' :: A) ++ ch '=' :: B := by
      simp
    refine iff_of_false ?_ (by omega)
    rw [hlast, element_append hB]
    have hkey' : 0 ∉ key := fun h0 => hnul (List.mem_append_left _ h0)
    have hkeys' : 0 ∉ key ++ ch '=' :: A := by
      intro h0
      apply hnul
      rw [hlast]
      exact List.mem_append_left _ h0
    split_ifs with hnil
    · simp
    · intro heq
      obtain ⟨v, -, hv⟩ := Option.map_eq_some_iff.mp heq
      have hkeys : CString.cut (key ++ ch '=' :: A) = CString.cut key := congrArg Prod.fst hv
      have hlength := congrArg (fun s => s.bytes.length) hkeys
      simp only [CString.bytes_cut hkeys', CString.bytes_cut hkey', List.length_append,
        List.length_cons] at hlength
      omega
  · rw [element_append htext, if_neg (not_or.mpr ⟨hkey0, htext0⟩),
      List.count_eq_zero_of_not_mem htext]
    rw [unescaped_eq] at hvalue
    obtain ⟨v, hv, rfl⟩ := Option.map_eq_some_iff.mp hvalue
    rw [hv]
    exact iff_of_true rfl rfl

/-- **The first `=`.** In every state, each element with text in front of its first `=` and text
behind it that can be decoded is stored as that name and that value when it has no other `=`. -/
theorem first_equals_iff (vars queryvars postvars : Pool) (calls : List ParserCall)
    {parser : http_parser_t}
    (hrun : (do calls.foldlM parser_call (← httpp_create vars queryvars postvars)) = .ok parser)
    (ns : httpp_ns_t) (q : CString) :
    ∃ f tree', Multimap (tree_of parser ns) f ∧
      parse_query (tree_of parser ns) (some q.block) q.bytes.length = .ok tree' ∧
      ∀ A e B n v, elements q.bytes = A ++ e :: B → first_split e = some (n, v) →
        ((Multimap tree' fun key =>
            f key ++ (values_of A key ++ (value_for (some (n, v)) key ++ values_of B key))) ↔
          e.count (ch '=') = 1) := by
  obtain ⟨f, hf⟩ := (calls_tidy hrun).tree_of ns
  obtain ⟨tree', hquery, hmaps⟩ := hf.parse_query q
  refine ⟨f, tree', hf.multimap, hquery, ?_⟩
  intro A e B n v hsplit hfirst
  have hnul : 0 ∉ e :=
    fun h0 =>
      q.nulFree (mem_of_mem_elements (hsplit ▸ List.mem_append_right A List.mem_cons_self) h0)
  rw [← element_first_iff hnul hfirst]
  have hactual : (fun key => f key ++ values_of (elements q.bytes) key) =
      fun key => f key ++ (values_of A key ++ (value_for (element e) key ++ values_of B key)) := by
    funext key
    rw [hsplit, values_of_append, values_of_cons]
  rw [hactual] at hmaps
  constructor
  · intro h
    apply value_for_inj
    intro key
    have hkey := congrFun (hmaps.multimap.unique h) key
    exact List.append_cancel_right (List.append_cancel_left (List.append_cancel_left hkey))
  · intro h
    rw [← h]
    exact hmaps.multimap

theorem first_equals_iff_two : ∃ parser, httpp_create ⟨id, id⟩ ⟨id, id⟩ ⟨id, id⟩ = .ok parser ∧
    ∃ f tree', Multimap parser.queryvars f ∧
      parse_query parser.queryvars (some (ascii "a=1&b=x%3Dy" ++ [0])) 11 = .ok tree' ∧
      ∀ A e B n v, elements (ascii "a=1&b=x%3Dy") = A ++ e :: B → first_split e = some (n, v) →
        ((Multimap tree' fun key =>
            f key ++ (values_of A key ++ (value_for (some (n, v)) key ++ values_of B key))) ↔
          e.count (ch '=') = 1) :=
  ⟨_, rfl, first_equals_iff ⟨id, id⟩ ⟨id, id⟩ ⟨id, id⟩ [] rfl .HTTPP_NS_QUERY_STRING
    ⟨ascii "a=1&b=x%3Dy", by decide⟩⟩

/-- The key of `u=a=b` is `u=a`. -/
theorem first_equals_lost :
    ¬ ∀ (vars queryvars postvars : Pool) (calls : List ParserCall) (parser : http_parser_t),
      (do calls.foldlM parser_call (← httpp_create vars queryvars postvars)) = .ok parser →
        ∀ (ns : httpp_ns_t) (q : CString), ∃ f tree', Multimap (tree_of parser ns) f ∧
          parse_query (tree_of parser ns) (some q.block) q.bytes.length = .ok tree' ∧
          ∀ A e B n v, elements q.bytes = A ++ e :: B → first_split e = some (n, v) →
            Multimap tree' fun key =>
              f key ++ (values_of A key ++ (value_for (some (n, v)) key ++ values_of B key)) := by
  intro h
  let q : CString := ⟨ascii "u=a=b", by decide⟩
  obtain ⟨f, tree', hf, hquery, hall⟩ :=
    h ⟨id, id⟩ ⟨id, id⟩ ⟨id, id⟩ [] _ rfl .HTTPP_NS_QUERY_STRING q
  obtain ⟨f', tree'', hf', hquery', hiff⟩ :=
    first_equals_iff ⟨id, id⟩ ⟨id, id⟩ ⟨id, id⟩ [] rfl .HTTPP_NS_QUERY_STRING q
  obtain rfl := hf.unique hf'
  rw [hquery] at hquery'
  cases hquery'
  have hcount :=
    (hiff [] q.bytes [] _ _ (by decide) rfl).mp (hall [] q.bytes [] _ _ (by decide) rfl)
  exact absurd hcount (by decide)

/-! ## Fragments -/

def last_element (q : Bytes) : Bytes := (elements q).getLastD []

def first_element (q : Bytes) : Bytes := (elements q).headD []

theorem elements_append (q t : Bytes) :
    ∃ A, elements q = A ++ [last_element q] ∧
      elements (q ++ t) = A ++ (last_element q ++ first_element t) :: (elements t).tail := by
  unfold last_element first_element
  obtain ⟨g, gs, hgs⟩ := List.exists_cons_of_ne_nil (List.splitOn_ne_nil (ch '&') t)
  have hsplit : ∃ A e, elements q = A ++ [e] ∧ elements (q ++ t) = A ++ (e ++ g) :: gs := by
    induction q with
    | nil => exact ⟨[], [], rfl, hgs⟩
    | cons c q ih =>
      obtain ⟨A, e, hq, hqt⟩ := ih
      unfold elements at hq hqt ⊢
      rw [List.cons_append, List.splitOn_cons_eq_if_modifyHead,
        List.splitOn_cons_eq_if_modifyHead, hq, hqt]
      split_ifs with hc
      · exact ⟨[] :: A, e, rfl, rfl⟩
      · cases A with
        | nil => exact ⟨[], c :: e, rfl, rfl⟩
        | cons a A => exact ⟨(c :: a) :: A, e, rfl, rfl⟩
  obtain ⟨A, e, hq, hqt⟩ := hsplit
  refine ⟨A, ?_, ?_⟩
  · rw [hq]
    simp
  · rw [hqt, hq]
    unfold elements
    rw [hgs]
    simp

theorem elements_hash (f : Bytes) :
    first_element (ch '#' :: f) = ch '#' :: first_element f ∧
      (elements (ch '#' :: f)).tail = (elements f).tail := by
  unfold first_element elements
  obtain ⟨g, gs, hgs⟩ := List.exists_cons_of_ne_nil (List.splitOn_ne_nil (ch '&') f)
  rw [List.splitOn_cons_eq_if_modifyHead, if_neg (by decide), hgs]
  exact ⟨rfl, rfl⟩

/-- What the decoder makes of a text stays when a fragment comes behind it. -/
theorem unescape_fragment {text : Bytes} (h : ch '#' ∉ text) (f : Bytes) :
    unescape (text ++ ch '#' :: f) = unescape text := by
  induction text using unit_induction with
  | nil =>
    rw [List.nil_append, unescape_hash]
    rfl
  | short rest hlen =>
    rw [unescape_short hlen, List.cons_append]
    match rest, f with
    | [], [] => rfl
    | [], _ :: _ => rfl
    | [b], f =>
      rw [List.singleton_append, unescape_escape, if_pos (Or.inr (by decide))]
  | escape hi lo rest ih =>
    simp only [List.mem_cons, not_or] at h
    rw [unescape_escape, ← ih h.2.2.2]
    exact unescape_escape hi lo _
  | plus rest ih =>
    rw [List.mem_cons, not_or] at h
    rw [unescape_plus, ← ih h.2]
    exact unescape_plus _
  | hash rest => exact absurd List.mem_cons_self h
  | nul rest => rw [unescape_nul, List.cons_append, unescape_nul]
  | literal c rest hc ih =>
    rw [List.mem_cons, not_or] at h
    rw [unescape_literal hc, ← ih h.2]
    exact unescape_literal hc _

/-- A query with a fragment behind it. -/
def with_fragment (q f : CString) : CString where
  bytes := q.bytes ++ ch '#' :: f.bytes
  nulFree h := by
    rcases List.mem_append.mp h with h | h
    · exact q.nulFree h
    · rcases List.mem_cons.mp h with h | h
      · exact absurd h (by decide)
      · exact f.nulFree h

/-- The parameters in some elements. -/
def parameters (es : List Bytes) : List (CString × CString) := es.filterMap element

theorem parameters_iff (es : List Bytes) (p : Option (CString × CString)) :
    (∀ key, value_for p key = values_of es key) ↔ parameters es = p.toList := by
  have hvalues : ∀ key, values_of es key = (parameters es).filterMap fun x =>
      if x.1 = key then some x.2 else none := by
    intro key
    unfold values_of parameters
    rw [List.filterMap_filterMap]
  constructor
  · intro h
    have hall : ∀ x ∈ parameters es, p = some x := by
      rintro ⟨key, value⟩ hx
      rw [← mem_value_for, h, hvalues, List.mem_filterMap]
      exact ⟨_, hx, if_pos rfl⟩
    cases p with
    | none => exact List.eq_nil_iff_forall_not_mem.mpr fun x hx => by cases hall x hx
    | some y =>
      obtain ⟨n, hn⟩ : ∃ n, parameters es = List.replicate n y :=
        ⟨_, List.eq_replicate_of_mem fun x hx => (Option.some.inj (hall x hx)).symm⟩
      have hone : value_for (some y) y.1 = List.replicate n y.2 := by
        rw [h, hvalues, hn]
        exact List.filterMap_replicate_of_some (f := fun x : CString × CString =>
          if x.1 = y.1 then some x.2 else none) (if_pos rfl)
      have hlen := congrArg List.length hone
      rw [List.length_replicate] at hlen
      have hn1 : n = 1 := by
        rw [← hlen]
        unfold value_for
        simp
      rw [hn, hn1]
      rfl
  · intro h key
    rw [hvalues, h]
    cases p with
    | none => rfl
    | some y =>
      unfold value_for
      simp only [Option.bind_some, Option.toList_some, List.filterMap_cons, List.filterMap_nil]
      split_ifs <;> rfl

/-- The fragment `g0` and the elements behind it add nothing to what the element `e` says. -/
def Harmless (e g0 : Bytes) (gs : List Bytes) : Prop :=
  let value := g0.rtakeWhile (· != ch '=')
  if ch '=' ∈ g0 then (value = [] ∨ unescape value = none) ∧ parameters gs = (element e).toList
  else e.getLast? ≠ some (ch '=') ∧ parameters gs = []

section Fragment

variable {key t g0 : Bytes} (gs : List Bytes) (hnul : 0 ∉ key ++ ch '=' :: t ++ ch '#' :: g0)
  (ht : ch '=' ∉ t)
include ht

include hnul in
theorem fragment_with_equals {a b : Bytes} (hg0 : g0 = a ++ ch '=' :: b) (hb : ch '=' ∉ b) :
    (∀ k, value_for (element (key ++ ch '=' :: t)) k =
      values_of ((key ++ ch '=' :: t ++ ch '#' :: g0) :: gs) k) ↔
      (b = [] ∨ unescape b = none) ∧ parameters gs = (element (key ++ ch '=' :: t)).toList := by
  have hlater :
      key ++ ch '=' :: t ++ ch '#' :: g0 = (key ++ ch '=' :: t ++ ch '#' :: a) ++ ch '=' :: b := by
    rw [hg0]
    simp
  simp only [values_of_cons]
  rw [hlater, element_append hb]
  by_cases hnone : b = [] ∨ unescape b = none
  · have hnothing : (if key ++ ch '=' :: t ++ ch '#' :: a = [] ∨ b = [] then none else
        (unescape b).map fun value =>
          (CString.cut (key ++ ch '=' :: t ++ ch '#' :: a), CString.cut value)) = none := by
      rcases hnone with rfl | hnone
      · simp
      · simp [hnone]
    rw [hnothing, ← parameters_iff]
    exact (and_iff_right hnone).symm
  · refine iff_of_false ?_ fun h => hnone h.1
    rw [not_or, ← ne_eq (unescape b), Option.ne_none_iff_exists'] at hnone
    obtain ⟨hb0, v, hv⟩ := hnone
    rw [if_neg (by simp [hb0]), hv, element_append ht]
    intro h
    have hfound : CString.cut v ∈ value_for (if key = [] ∨ t = [] then none else
        (unescape t).map fun value => (CString.cut key, CString.cut value))
        (CString.cut (key ++ ch '=' :: t ++ ch '#' :: a)) := by
      rw [h, List.mem_append]
      exact Or.inl (mem_value_for.mpr rfl)
    rw [mem_value_for] at hfound
    split_ifs at hfound
    obtain ⟨w, -, hw⟩ := Option.map_eq_some_iff.mp hfound
    have hlength := congrArg (fun x => x.1.bytes.length) hw
    have hkeynul : 0 ∉ key := fun h0 => hnul (by simp [h0])
    have hlongnul : 0 ∉ key ++ ch '=' :: t ++ ch '#' :: a := by
      intro h0
      rw [hlater] at hnul
      exact hnul (List.mem_append_left _ h0)
    simp only [CString.bytes_cut hkeynul, CString.bytes_cut hlongnul, List.length_append,
      List.length_cons] at hlength
    omega

theorem fragment_without_equals (hg0 : ch '=' ∉ g0) (hhash : ch '#' ∉ t)
    (hkey : t = [] → key ≠ []) :
    (∀ k, value_for (element (key ++ ch '=' :: t)) k =
      values_of ((key ++ ch '=' :: t ++ ch '#' :: g0) :: gs) k) ↔
      (key ++ ch '=' :: t).getLast? ≠ some (ch '=') ∧ parameters gs = [] := by
  have hfragment : key ++ ch '=' :: t ++ ch '#' :: g0 = key ++ ch '=' :: (t ++ ch '#' :: g0) := by
    simp
  have hequals : ch '=' ∉ t ++ ch '#' :: g0 := by
    rw [List.mem_append, List.mem_cons, not_or, not_or]
    exact ⟨ht, by decide, hg0⟩
  simp only [values_of_cons]
  rw [hfragment, element_append hequals, unescape_fragment hhash, element_append ht]
  by_cases ht0 : t = []
  · subst ht0
    refine iff_of_false ?_ fun h => h.1 (by simp)
    rw [if_pos (Or.inr rfl), if_neg (by simp [hkey rfl])]
    intro h
    have hfound : CString.cut [] ∈ value_for none (CString.cut key) := by
      rw [h, List.mem_append]
      exact Or.inl (mem_value_for.mpr rfl)
    cases mem_value_for.mp hfound
  · have hlast : (key ++ ch '=' :: t).getLast? ≠ some (ch '=') := by
      rw [List.getLast?_append_of_ne_nil _ (List.cons_ne_nil _ _), List.getLast?_cons_of_ne_nil ht0]
      exact fun h => ht (List.mem_of_getLast? h)
    have hsame : (key = [] ∨ t ++ ch '#' :: g0 = []) ↔ (key = [] ∨ t = []) := by simp [ht0]
    simp only [hsame]
    rw [and_iff_right hlast]
    refine Iff.trans (forall_congr' fun k => ?_) (parameters_iff gs none)
    exact List.self_eq_append_right.trans eq_comm

end Fragment

theorem harmless_iff {e g0 : Bytes} (gs : List Bytes) (hnul : 0 ∉ e ++ ch '#' :: g0)
    (hhash : ch '#' ∉ e) (hvalue : (e.dropWhile (· != ch '=')).drop 1 ≠ []) :
    (∀ key, value_for (element e) key = values_of ((e ++ ch '#' :: g0) :: gs) key) ↔
      Harmless e g0 gs := by
  have hmem : ch '=' ∈ e := by
    by_contra hmem
    rw [dropWhile_nil_iff.mpr hmem] at hvalue
    exact hvalue rfl
  obtain ⟨key, t, rfl, ht⟩ := exists_last_equals hmem
  unfold Harmless
  split_ifs with hg0
  · obtain ⟨a, b, rfl, hb⟩ := exists_last_equals hg0
    rw [(last_equals hb a).2]
    exact fragment_with_equals gs hnul ht rfl hb
  · refine fragment_without_equals gs ht hg0 (fun h =>
      hhash (List.mem_append_right _ (List.mem_cons_of_mem _ h))) ?_
    rintro rfl rfl
    exact hvalue rfl

/-- **Fragments.** The parameters stay when a fragment comes behind the query, if it is harmless. -/
theorem fragment_iff (pool : Pool) (q f : CString) (hhash : ch '#' ∉ q.bytes)
    (hvalue : ((last_element q.bytes).dropWhile (· != ch '=')).drop 1 ≠ []) :
    ∃ tree tree', (do parse_query (← var_tree.new pool) (some q.block) q.bytes.length) = .ok tree ∧
      (do parse_query (← var_tree.new pool) (some (with_fragment q f).block)
            (with_fragment q f).bytes.length) =
        .ok tree' ∧
      ((∃ values, Multimap tree values ∧ Multimap tree' values) ↔
        Harmless (last_element q.bytes) (first_element f.bytes) (elements f.bytes).tail) := by
  obtain ⟨tree0, hnew, hempty⟩ := var_tree.new_spec pool
  obtain ⟨tree, hrun, hmaps⟩ := hempty.parse_query q
  obtain ⟨tree', hrun', hmaps'⟩ := hempty.parse_query (with_fragment q f)
  refine ⟨tree, tree', by rw [hnew, ok_bind, hrun], by rw [hnew, ok_bind, hrun'], ?_⟩
  obtain ⟨A, hq, hqf⟩ := elements_append q.bytes (ch '#' :: f.bytes)
  rw [(elements_hash f.bytes).1, (elements_hash f.bytes).2] at hqf
  have hnul : 0 ∉ last_element q.bytes ++ ch '#' :: first_element f.bytes := fun h0 =>
    (with_fragment q f).nulFree
      (mem_of_mem_elements (hqf ▸ List.mem_append_right A List.mem_cons_self) h0)
  have hhash' : ch '#' ∉ last_element q.bytes := fun h =>
    hhash (mem_of_mem_elements (hq ▸ List.mem_append_right A List.mem_cons_self) h)
  rw [← harmless_iff _ hnul hhash' hvalue]
  have hone :
      ∀ key, values_of (elements q.bytes) key = values_of A key ++
      value_for (element (last_element q.bytes)) key := by
    intro key
    rw [hq, values_of_append, values_of_cons]
    exact congrArg _ (List.append_nil _)
  have htwo : ∀ key, values_of (elements (with_fragment q f).bytes) key = values_of A key ++
      values_of
        ((last_element q.bytes ++ ch '#' :: first_element f.bytes) :: (elements f.bytes).tail)
        key := by
    intro key
    rw [show elements (with_fragment q f).bytes = _ from hqf, values_of_append]
  simp only [List.nil_append, hone] at hmaps
  simp only [List.nil_append, htwo] at hmaps'
  constructor
  · rintro ⟨values, h, h'⟩ key
    have hsame := congrFun ((hmaps.multimap.unique h).trans (h'.unique hmaps'.multimap)) key
    exact List.append_cancel_left hsame
  · intro h
    refine ⟨_, hmaps.multimap, ?_⟩
    simp only [h]
    exact hmaps'.multimap

theorem fragment_iff_plain :
    let q : CString := ⟨ascii "a=1", by decide⟩
    let f : CString := ⟨ascii "top&x", by decide⟩
    ∃ tree tree', (do parse_query (← var_tree.new ⟨id, id⟩) (some q.block) q.bytes.length) =
      .ok tree ∧
      (do parse_query (← var_tree.new ⟨id, id⟩) (some (with_fragment q f).block)
            (with_fragment q f).bytes.length) =
        .ok tree' ∧
      ((∃ values, Multimap tree values ∧ Multimap tree' values) ↔
        Harmless (last_element q.bytes) (first_element f.bytes) (elements f.bytes).tail) :=
  fragment_iff ⟨id, id⟩ ⟨ascii "a=1", by decide⟩ ⟨ascii "top&x", by decide⟩ (by decide)
    (by decide +kernel)

/-- The query `a=1` with the fragment `f&b=2`. -/
theorem fragment_leaks :
    ¬ ∀ (pool : Pool) (q f : CString), ch '#' ∉ q.bytes →
      ((last_element q.bytes).dropWhile (· != ch '=')).drop 1 ≠ [] →
      ∃ tree tree', (do parse_query (← var_tree.new pool) (some q.block) q.bytes.length) =
      .ok tree ∧
        (do parse_query (← var_tree.new pool) (some (with_fragment q f).block)
              (with_fragment q f).bytes.length) =
          .ok tree' ∧
        ∃ values, Multimap tree values ∧ Multimap tree' values := by
  intro h
  let q : CString := ⟨ascii "a=1", by decide⟩
  let f : CString := ⟨ascii "f&b=2", by decide⟩
  obtain ⟨t, t', hrun, hrun', hsame⟩ := h ⟨id, id⟩ q f (by decide) (by decide +kernel)
  obtain ⟨u, u', hrunu, hrunu', hiff⟩ := fragment_iff ⟨id, id⟩ q f (by decide) (by decide +kernel)
  rw [hrun] at hrunu
  rw [hrun'] at hrunu'
  cases hrunu
  cases hrunu'
  have hharmless := hiff.mp hsame
  have hlater : ch '=' ∉ first_element f.bytes := by decide +kernel
  unfold Harmless at hharmless
  simp only [hlater, if_false] at hharmless
  exact absurd hharmless.2 (by decide +kernel)

end Httpp
