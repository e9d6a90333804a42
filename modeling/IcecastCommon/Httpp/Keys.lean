import IcecastCommon.Avl.Iterate
import IcecastCommon.Httpp.Vars

/-!
# Namespaces

`httpp_get_any_key` walks a tree and leaves out what is not in the namespace, `httpp_get_any_var`
looks one name up. They agree in every state that calls without a fault lead to.
-/

namespace Httpp

open Lib Avl httpp_ns_t

/-! ## What every call keeps -/

/-- The tree holds one variable a name, whatever the values are. -/
def Held (tree : var_tree) : Prop := ∃ f, Maps tree f

theorem replace_param_spec {tree : var_tree} {f : CString → List CString} (h : Maps tree f)
    (name value : CString) :
    ∃ tree', _httpp_set_param_nocopy tree (some name) (some value) true = .ok tree' ∧
      Maps tree' (Function.update f name [value]) := by
  obtain ⟨S, hS, he⟩ := h.entries
  obtain ⟨a, values', S', hmalloc, hget, hgen, hS', he', hnew⟩ := h.alloc [value]
  unfold _httpp_set_param_nocopy
  rcases get_param_var_spec hS he name with ⟨v, hv, hname, hrun⟩ | ⟨habsent, hrun⟩
  · obtain ⟨tree1, tree', hdelete, hinsert, hmaps⟩ :=
      replace_spec { tree with values := values' } hS' he' hgen
        (List.cons_ne_nil value []) hget hnew v hname
    refine ⟨tree', ?_, hmaps⟩
    simp only [hrun, ok_bind, hmalloc, hdelete, hinsert]
  · obtain ⟨tree', hinsert, hmaps⟩ := insert_new_spec { tree with values := values' } hS' he' hgen
      (List.cons_ne_nil value []) hget hnew habsent
    refine ⟨tree', ?_, hmaps⟩
    simp only [hrun, ok_bind, hmalloc, hinsert]

theorem set_param_held {tree : var_tree} (h : Held tree) (name value : Option CString)
    (replace : Bool) :
    Yields (_httpp_set_param_nocopy tree name value replace) Held := by
  obtain ⟨f, hf⟩ := h
  match name, value with
  | none, _ => exact yields_ok ⟨f, hf⟩
  | some _, none => exact yields_ok ⟨f, hf⟩
  | some name, some value =>
    cases replace with
    | false =>
      obtain ⟨tree', hrun, h'⟩ := set_param_spec hf name value
      rw [hrun]
      exact yields_ok ⟨_, h'⟩
    | true =>
      obtain ⟨tree', hrun, h'⟩ := replace_param_spec hf name value
      rw [hrun]
      exact yields_ok ⟨_, h'⟩

theorem parse_query_element_held {tree : var_tree} (h : Held tree) (query : Bytes) (start : Nat)
    (mid : Option Nat) (end_ : Nat) :
    Yields (parse_query_element tree query start mid end_) Held := by
  unfold parse_query_element
  split_ifs with hempty
  · exact yields_ok h
  · cases mid with
    | none => exact yields_ok h
    | some mid =>
      dsimp only
      split_ifs with hlen
      · exact yields_ok h
      · refine yields_bind fun key _ => yields_bind fun value _ => ?_
        exact yields_bind fun name _ => yields_bind fun text _ => set_param_held h _ _ _

theorem parse_query_loop_held (query : Bytes) (n : Nat) :
    ∀ (i : Nat) (tree : var_tree) (start : Nat) (mid : Option Nat), Held tree →
      Yields (parse_query_loop query n i tree start mid) fun r => Held r.1 := by
  induction n with
  | zero => exact fun _ _ _ _ h => yields_ok h
  | succ n ih =>
    intro i tree start mid h
    unfold parse_query_loop
    refine yields_bind fun c _ => ?_
    split_ifs
    · exact (parse_query_element_held h query start mid i).bind fun tree' h' => ih _ tree' _ _ h'
    · exact ih _ tree _ _ h
    · exact ih _ tree _ _ h

theorem parse_query_held {tree : var_tree} (h : Held tree) (query : Option Bytes) (len : Nat) :
    Yields (parse_query tree query len) Held := by
  cases query with
  | none => exact yields_ok h
  | some query =>
    unfold parse_query
    refine yields_bind fun c _ => ?_
    split_ifs
    · exact yields_ok h
    · exact (parse_query_loop_held query len 0 tree 0 none h).bind fun r h' =>
        parse_query_element_held h' _ _ _ _

/-- The three trees of a parser. -/
structure Tidy (parser : http_parser_t) : Prop where
  vars : Held parser.vars
  queryvars : Held parser.queryvars
  postvars : Held parser.postvars

section Parse

variable {parser : http_parser_t}

theorem setvar_tidy (h : Tidy parser) (name value : Option CString) :
    Yields (httpp_setvar parser name value) Tidy := by
  obtain ⟨f, hf⟩ := h.vars
  match name, value with
  | none, _ => exact yields_ok h
  | some _, none => exact yields_ok h
  | some name, some value =>
    obtain ⟨vars, hrun, h'⟩ := setvar_spec hf name value
    rw [hrun]
    exact yields_ok ⟨⟨_, h'⟩, h.queryvars, h.postvars⟩

theorem deletevar_tidy (h : Tidy parser) (name : Option CString) :
    Yields (httpp_deletevar parser name) Tidy := by
  obtain ⟨f, hf⟩ := h.vars
  cases name with
  | none => exact yields_ok h
  | some name =>
    obtain ⟨vars, hrun, h'⟩ := deletevar_spec hf name
    rw [hrun]
    exact yields_ok ⟨⟨_, h'⟩, h.queryvars, h.postvars⟩

theorem parse_uri_tidy (h : Tidy parser) (data : Bytes) (uri : Option Nat) :
    Yields (parse_uri parser data uri) fun r => Tidy r.2.1 := by
  cases uri with
  | none => exact yields_ok h
  | some uri =>
    unfold parse_uri
    refine yields_bind fun text _ => ?_
    split_ifs
    · refine yields_bind fun query _ => ?_
      cases query with
      | none => exact yields_bind fun _ _ => yields_ok ⟨h.vars, h.queryvars, h.postvars⟩
      | some query =>
        refine yields_bind fun _ _ => (setvar_tidy h _ _).bind fun parser1 h1 => ?_
        refine yields_bind fun _ _ => (setvar_tidy h1 _ _).bind fun parser2 h2 => ?_
        refine yields_bind fun _ _ => yields_bind fun _ _ => ?_
        refine (parse_query_held h2.queryvars _ _).bind fun queryvars hq => ?_
        exact yields_bind fun _ _ => yields_ok ⟨h2.vars, hq, h2.postvars⟩
    · exact yields_ok h

theorem parse_version_tidy (h : Tidy parser) (data : Bytes) (version : Option Nat) :
    Yields (parse_version parser data version) fun r => Tidy r.2.1 := by
  cases version with
  | none => exact yields_ok h
  | some version =>
    unfold parse_version
    refine yields_bind fun slash _ => ?_
    cases slash with
    | none => exact yields_ok h
    | some tmp =>
      refine yields_bind fun _ _ => yields_bind fun _ _ => yields_bind fun _ _ => ?_
      split_ifs
      · refine (setvar_tidy h _ _).bind fun parser1 h1 => ?_
        exact (setvar_tidy h1 _ _).bind fun parser2 h2 => yields_ok h2
      · exact yields_ok h

theorem set_req_type_tidy (h : Tidy parser) : Yields (set_req_type parser) fun r => Tidy r.2 := by
  unfold set_req_type
  split_ifs
  · cases methods.lookup parser.req_type with
    | none => exact yields_ok h
    | some name => exact (setvar_tidy h _ _).bind fun parser1 h1 => yields_ok h1
  · exact yields_ok h

theorem set_uri_tidy (h : Tidy parser) : Yields (set_uri parser) fun r => Tidy r.2 := by
  unfold set_uri
  cases parser.uri with
  | none => exact yields_ok h
  | some uri => exact (setvar_tidy h _ _).bind fun parser1 h1 => yields_ok h1

theorem parse_header_tidy (h : Tidy parser) (data : Bytes) (name : Nat) :
    Yields (parse_header data name parser) fun r => Tidy r.2 := by
  unfold parse_header
  refine yields_bind fun slen _ => yields_bind fun r _ => ?_
  obtain ⟨text, value⟩ := r
  cases value with
  | none => exact yields_ok h
  | some value =>
    refine yields_bind fun _ _ => yields_bind fun _ _ => yields_bind fun _ _ => ?_
    exact (setvar_tidy h _ _).bind fun parser1 h1 => yields_ok h1

theorem parse_headers_tidy (line : Nat → Option Nat) (n : Nat) :
    ∀ (l : Nat) (data : Bytes) {parser : http_parser_t}, Tidy parser →
      Yields (parse_headers_loop line n l data parser) Tidy := by
  induction n with
  | zero => exact fun _ _ _ h => yields_ok h
  | succ n ih =>
    intro l data parser h
    unfold parse_headers_loop
    refine yields_bind fun _ _ => (parse_header_tidy h _ _).bind fun r hr => ?_
    exact ih _ _ hr

theorem parse_rest_tidy (h : Tidy parser) (data : Bytes) (line : Nat → Option Nat) (lines : Nat)
    (uri version : Option Nat) :
    Yields (parse_rest parser data line lines uri version) fun r => Tidy r.2 := by
  unfold parse_rest
  refine (parse_uri_tidy h data uri).bind fun r1 h1 => ?_
  dsimp only
  split_ifs
  · exact yields_ok h1
  refine (parse_version_tidy h1 _ _).bind fun r2 h2 => ?_
  split_ifs
  · exact yields_ok h2
  refine (set_req_type_tidy h2).bind fun r3 h3 => ?_
  split_ifs
  · exact yields_ok h3
  refine (set_uri_tidy h3).bind fun r4 h4 => ?_
  split_ifs
  · exact yields_ok h4
  · exact (parse_headers_tidy line _ 1 _ h4).bind fun parser5 h5 => yields_ok h5

theorem httpp_parse_tidy (h : Tidy parser) (http_data : Option Bytes) (len : Nat) :
    Yields (httpp_parse parser http_data len) fun r => Tidy r.2 := by
  cases http_data with
  | none => exact yields_ok h
  | some http_data =>
    unfold httpp_parse
    refine yields_bind fun _ _ => yields_bind fun r _ => yields_bind fun _ _ =>
      yields_bind fun _ _ => ?_
    refine yields_bind fun words _ => ?_
    cases words with
    | none => exact yields_ok h
    | some words =>
      refine yields_bind fun method _ => ?_
      have h0 : Tidy { parser with req_type := httpp_str_to_method method } :=
        ⟨h.vars, h.queryvars, h.postvars⟩
      exact parse_rest_tidy h0 _ _ _ _ _

theorem postdata_tidy (h : Tidy parser) (body_data : Option Bytes) (len : Nat) :
    Yields (httpp_parse_postdata parser body_data len) fun r => Tidy r.2 := by
  unfold httpp_parse_postdata
  refine yields_bind fun header _ => ?_
  cases header with
  | none => exact yields_error _
  | some header =>
    dsimp only
    split_ifs
    · exact yields_ok h
    · exact (parse_query_held h.postvars _ _).bind fun postvars hp =>
        yields_ok ⟨h.vars, h.queryvars, hp⟩

theorem _httpp_set_param_held {tree : var_tree} (h : Held tree) (name value : Option CString) :
    Yields (_httpp_set_param tree name value) Held := by
  match name, value with
  | none, _ => exact yields_ok h
  | some _, none => exact yields_ok h
  | some name, some value =>
    unfold _httpp_set_param
    exact yields_bind fun text _ => yields_bind fun value _ => set_param_held h _ _ _

end Parse

/-! ## The names of a namespace -/

/-- Whether a name is in the namespace. -/
def belongs (ns : httpp_ns_t) (name : CString) : Bool :=
  match ns with
  | HTTPP_NS_VAR => (ascii "__").isPrefixOf name.bytes
  | HTTPP_NS_HEADER => !(ascii "__").isPrefixOf name.bytes
  | _ => true

/-- The tree of the namespace. -/
def tree_of (parser : http_parser_t) (ns : httpp_ns_t) : var_tree :=
  match ns with
  | HTTPP_NS_VAR => parser.vars
  | HTTPP_NS_HEADER => parser.vars
  | HTTPP_NS_QUERY_STRING => parser.queryvars
  | HTTPP_NS_POST_BODY => parser.postvars

theorem Tidy.tree_of {parser : http_parser_t} (h : Tidy parser) (ns : httpp_ns_t) :
    Held (tree_of parser ns) := by
  cases ns
  · exact h.vars
  · exact h.vars
  · exact h.queryvars
  · exact h.postvars

theorem front_bytes (name : CString) :
    ∃ c, read name.block 0 = .ok c ∧ (c ≠ ch '_' → (ascii "__").isPrefixOf name.bytes = false) ∧
      (c = ch '_' → ∃ c', read name.block 1 = .ok c' ∧
      (ascii "__").isPrefixOf name.bytes = decide (c' = ch '_')) := by
  have htext : ascii "__" = [ch '_', ch '_'] := rfl
  rw [htext]
  obtain ⟨bytes, hnul⟩ := name
  match bytes with
  | [] => exact ⟨0, rfl, fun _ => rfl, fun h => absurd h (by decide)⟩
  | [c] =>
    refine ⟨c, rfl, fun _ => by simp [List.isPrefixOf], fun _ => ⟨0, rfl, ?_⟩⟩
    rw [show decide ((0 : Byte) = ch '_') = false from by decide]
    simp [List.isPrefixOf]
  | c :: c' :: rest =>
    refine ⟨c, rfl, fun hc => ?_, fun hc => ⟨c', rfl, ?_⟩⟩
    · simp [List.isPrefixOf, hc.symm]
    · rw [Bool.eq_iff_iff, decide_eq_true_eq]
      simp only [List.isPrefixOf, hc, beq_self_eq_true, Bool.true_and, Bool.and_true, beq_iff_eq]
      exact eq_comm

theorem any_key_continue_spec (ns : httpp_ns_t) (name : CString) :
    any_key_continue ns name = .ok !belongs ns name := by
  obtain ⟨c, hc, hother, hsame⟩ := front_bytes name
  cases ns
  · by_cases h : c = ch '_'
    · obtain ⟨c', hc', htest⟩ := hsame h
      simp [any_key_continue, belongs, hc, h, hc', htest]
    · simp [any_key_continue, belongs, hc, h, hother h]
  · by_cases h : c = ch '_'
    · obtain ⟨c', hc', htest⟩ := hsame h
      simp [any_key_continue, belongs, hc, h, hc', htest]
    · simp [any_key_continue, belongs, hc, h, hother h]
  · rfl
  · rfl

theorem get_any_var_spec (parser : http_parser_t) (ns : httpp_ns_t) (name : CString) :
    httpp_get_any_var parser ns (some name) =
      if belongs ns name then _httpp_get_param_var (tree_of parser ns) name else .ok none := by
  obtain ⟨c, hc, hother, hsame⟩ := front_bytes name
  cases ns
  · by_cases h : c = ch '_'
    · obtain ⟨c', hc', htest⟩ := hsame h
      by_cases h' : c' = ch '_'
      · simp [httpp_get_any_var, belongs, tree_of, hc, h, hc', htest, h']
      · simp [httpp_get_any_var, belongs, hc, h, hc', htest, h']
    · simp [httpp_get_any_var, belongs, hc, h, hother h]
  · by_cases h : c = ch '_'
    · obtain ⟨c', hc', htest⟩ := hsame h
      by_cases h' : c' = ch '_'
      · simp [httpp_get_any_var, belongs, hc, h, hc', htest, h']
      · simp [httpp_get_any_var, belongs, tree_of, hc, h, hc', htest, h']
    · simp [httpp_get_any_var, belongs, tree_of, hc, h, hother h]
  · rfl
  · rfl

/-! ## The array -/

/-- The names, and at least one NULL behind them. -/
def Terminated (ret : any_keys) (names : List CString) : Prop :=
  ∃ spare, ret = names.map some ++ List.replicate (spare + 1) none

theorem Terminated.free {ret : any_keys} {names : List CString} (h : Terminated ret names) :
    httpp_free_any_key ret = .ok () := by
  obtain ⟨spare, rfl⟩ := h
  induction names with
  | nil => rfl
  | cons name names ih => exact ih

theorem Terminated.length {ret : any_keys} {names : List CString} (h : Terminated ret names) :
    names.length ≤ ret.length - 1 ∧ 0 < ret.length := by
  obtain ⟨spare, rfl⟩ := h
  simp only [List.length_append, List.length_map, List.length_replicate]
  omega

theorem Terminated.grow {ret : any_keys} {names : List CString} (h : Terminated ret names) :
    Terminated (ret ++ List.replicate 8 none) names := by
  obtain ⟨spare, rfl⟩ := h
  exact ⟨spare + 8, by rw [List.append_assoc, List.replicate_append_replicate]⟩

theorem Terminated.store {ret : any_keys} {names : List CString} (h : Terminated ret names)
    (hroom : names.length ≠ ret.length - 1) (key : Option CString) :
    ∃ ret', store_key ret names.length key = .ok ret' ∧ Terminated ret' (names ++ key.toList) := by
  obtain ⟨spare, rfl⟩ := h
  simp only [List.length_append, List.length_map, List.length_replicate] at hroom
  obtain ⟨spare, rfl⟩ : ∃ n, spare = n + 1 := ⟨spare - 1, by omega⟩
  refine ⟨_, if_pos (by simp), ?_⟩
  rw [List.set_append_right _ _ (by simp), List.length_map, Nat.sub_self, List.replicate_succ,
    List.set_cons_zero]
  cases key with
  | none => exact ⟨spare + 1, by simp [List.replicate_succ]⟩
  | some name => exact ⟨spare, by simp⟩

/-- The names in the namespace. -/
def listed (ns : httpp_ns_t) (S : List http_var_t) : List CString :=
  (S.map (·.name)).filter (belongs ns)

/-- What `httpp_get_any_key` may return: an array with these names, or NULL when an allocation
failed. -/
def Returns (names : List CString) (granted : Nat → Bool) (result : C (Option any_keys)) : Prop :=
  ∃ r, result = .ok r ∧ (∀ ret, r = some ret → Terminated ret names) ∧
    (r = none → ∃ n, granted n = false)

theorem Returns.shift {names : List CString} {granted : Nat → Bool} {result : C (Option any_keys)}
    (h : Returns names (fun n => granted (n + 1)) result) : Returns names granted result := by
  obtain ⟨r, hr, hsome, hnone⟩ := h
  exact ⟨r, hr, hsome, fun h0 => (hnone h0).elim fun n hn => ⟨n + 1, hn⟩⟩

theorem returns_null {names : List CString} {granted : Nat → Bool} (h : granted 0 = false) :
    Returns names granted (.ok none) :=
  ⟨none, rfl, fun _ h => by simp at h, fun _ => ⟨0, h⟩⟩

theorem store_name_spec (rest : (Nat → Bool) → any_keys → Nat → C (Option any_keys))
    {all names : List CString} {name : CString} (granted : Nat → Bool) {ret : any_keys} {pos : Nat}
    (hret : Terminated ret names) (hroom : pos ≠ ret.length - 1) (hpos : pos = names.length)
    (hrest : ∀ granted ret, Terminated ret (names ++ [name]) →
      Returns all granted (rest granted ret (names ++ [name]).length)) :
    Returns all granted (do
      let ret ← store_key ret pos (if granted 0 then some name else none)
      if granted 0 = false then
        httpp_free_any_key ret
        return none
      rest (fun n => granted (n + 1)) ret (pos + 1)) := by
  rw [hpos] at hroom ⊢
  obtain ⟨ret', hrun, hret'⟩ := hret.store hroom (if granted 0 then some name else none)
  rw [hrun, ok_bind]
  cases hg : granted 0 with
  | false =>
    rw [if_pos rfl, hret'.free]
    exact returns_null hg
  | true =>
    rw [hg, if_pos rfl] at hret'
    rw [if_neg (by simp)]
    rw [List.length_append, List.length_singleton] at hrest
    exact (hrest _ ret' hret').shift

/-- The same where there may be no room for the name, so that the array grows first. -/
theorem keep_name_spec (rest : (Nat → Bool) → any_keys → Nat → C (Option any_keys))
    {all names : List CString} {name : CString} (granted : Nat → Bool) {ret : any_keys} {pos : Nat}
    (hret : Terminated ret names) (hpos : pos = names.length)
    (hrest : ∀ granted ret, Terminated ret (names ++ [name]) →
      Returns all granted (rest granted ret (names ++ [name]).length)) :
    Returns all granted (do
      let full := pos = ret.length - 1
      if full ∧ granted 0 = false then
        httpp_free_any_key ret
        return none
      let ret := if full then ret ++ List.replicate 8 none else ret
      let granted := if full then fun n => granted (n + 1) else granted
      let ret ← store_key ret pos (if granted 0 then some name else none)
      if granted 0 = false then
        httpp_free_any_key ret
        return none
      rest (fun n => granted (n + 1)) ret (pos + 1)) := by
  by_cases hfull : pos = ret.length - 1
  · cases hg : granted 0 with
    | false =>
      simp only [hfull, true_and, if_true, hret.free]
      exact returns_null hg
    | true =>
      simp only [hfull, Bool.true_eq_false, and_false, if_false, if_true]
      rw [← hfull]
      refine (store_name_spec rest _ hret.grow ?_ hpos hrest).shift
      have := hret.length
      rw [List.length_append, List.length_replicate]
      omega
  · simp only [hfull, false_and, if_false]
    exact store_name_spec rest granted hret hfull hpos hrest

abbrev VarItem := Item (Option http_var_t) (BitVec 32)

variable {m : Memory (avl_node (Option http_var_t) (BitVec 32))} {root : Nat}
  {t : BinaryTree VarItem}

theorem listed_snoc (ns : httpp_ns_t) (S : List http_var_t) (v : http_var_t) :
    listed ns (S ++ [v]) = listed ns S ++ if belongs ns v.name then [v.name] else [] := by
  unfold listed
  rw [List.map_append, List.filter_append, List.map_singleton]
  cases hb : belongs ns v.name <;> simp [hb]

theorem keys_ne_null {S : List http_var_t} (h : keys t = S.map some) :
    ∀ k ∈ keys t, k ≠ HasNull.NULL := by
  intro k hk
  rw [h] at hk
  obtain ⟨w, -, rfl⟩ := List.mem_map.mp hk
  exact Option.some_ne_none w

theorem keyed_cons {i : VarItem} {B : List VarItem} {S : List http_var_t}
    (h : (i :: B).map (·.key) = S.map some) :
    ∃ v S', i.key = some v ∧ B.map (·.key) = S'.map some ∧ S = v :: S' := by
  cases S with
  | nil => simp at h
  | cons v S' =>
    obtain ⟨hv, hB⟩ := List.cons.inj h
    exact ⟨v, S', hv, hB, rfl⟩

/-- The loop at the first node of `B`, with the names before it in the array. -/
theorem any_key_loop_spec (ns : httpp_ns_t) (h : Holds m root [] t) (B : List VarItem) :
    ∀ (A : List VarItem) (SA SB : List http_var_t) (fuel : Nat) (granted : Nat → Bool)
      (ret : any_keys) (pos : Nat), inorder t = A ++ B → A.map (·.key) = SA.map some →
      B.map (·.key) = SB.map some → B.length < fuel → Terminated ret (listed ns SA) →
      pos = (listed ns SA).length →
      Returns (listed ns (SA ++ SB)) granted
        (any_key_loop ns m fuel granted ret pos (firstOf B)) := by
  induction B with
  | nil =>
    intro A SA SB fuel granted ret pos _ _ hB hfuel hret _
    obtain ⟨fuel, rfl⟩ : ∃ n, fuel = n + 1 := ⟨fuel - 1, by omega⟩
    obtain rfl : SB = [] := by simpa using hB.symm
    rw [List.append_nil]
    exact ⟨some ret, rfl, fun _ h => Option.some.inj h ▸ hret, fun h => by simp at h⟩
  | cons i B ih =>
    intro A SA SB fuel granted ret pos hsplit hA hB hfuel hret hpos
    rw [List.length_cons] at hfuel
    obtain ⟨fuel, rfl⟩ : ∃ n, fuel = n + 1 := ⟨fuel - 1, by omega⟩
    obtain ⟨v, SB', hv, hB', rfl⟩ := keyed_cons hB
    have hkeys : ∀ k ∈ keys t, k ≠ HasNull.NULL :=
      keys_ne_null (by rw [keys, hsplit, List.map_append, hA, hB, ← List.map_append])
    obtain ⟨c, l, r, hplug, -, -⟩ := exists_position hsplit
    have hheld : Holds m root c (.node i l r) := holds_plug.mpr (hplug.symm ▸ h)
    have hnext := (neighbours h hkeys hsplit).1
    have hA' : (A ++ [i]).map (·.key) = (SA ++ [v]).map some := by simp [hA, hv]
    have hloop : ∀ granted ret, Terminated ret (listed ns (SA ++ [v])) →
        Returns (listed ns (SA ++ v :: SB')) granted
          (any_key_loop ns m fuel granted ret (listed ns (SA ++ [v])).length (firstOf B)) := by
      intro granted ret hret
      have := ih (A ++ [i]) (SA ++ [v]) SB' fuel granted ret _ (by rw [hsplit]; simp) hA' hB'
        (by omega) hret rfl
      rwa [List.append_assoc] at this
    rw [show firstOf (i :: B) = some i.addr from rfl]
    simp only [any_key_loop, Memory.load_eq hheld.get_node, ok_bind, cell, hv,
      any_key_continue_spec, hnext]
    cases hb : belongs ns v.name with
    | false =>
      rw [listed_snoc, hb, if_neg (by simp), List.append_nil] at hloop
      simp only [Bool.not_false, if_true]
      rw [hpos]
      exact hloop granted ret hret
    | true =>
      rw [listed_snoc, hb, if_pos rfl] at hloop
      simp only [Bool.not_true, Bool.false_eq_true, if_false]
      exact keep_name_spec (fun granted ret pos =>
        any_key_loop ns m fuel granted ret pos (firstOf B)) granted hret hpos hloop

theorem get_any_key_spec {parser : http_parser_t} (ns : httpp_ns_t) {S : List http_var_t}
    (hS : Lists (tree_of parser ns).avl S) (granted : Nat → Bool) :
    Returns (listed ns S) granted (httpp_get_any_key parser ns granted) := by
  obtain ⟨t, hst, hkeys⟩ := hS.held
  obtain ⟨root, hroot, hheld⟩ := hst.held
  have hsize := hheld.numNodes_lt_size
  rw [plug_nil] at hsize
  have hfirst := get_first_spec hroot hheld (keys_ne_null hkeys)
  have htree : httpp_get_any_key parser ns granted = (if granted 0 = false then return none else
      any_key_loop ns (tree_of parser ns).avl.mem ((tree_of parser ns).avl.mem.size + 1) (fun n =>
        granted (n + 1))
        (List.replicate 8 none) 0 (firstOf (inorder t))) := by
    unfold httpp_get_any_key
    cases ns <;> simp only [tree_of] at hfirst ⊢ <;> rw [hfirst, ok_bind]
  rw [htree]
  cases hg : granted 0 with
  | false => exact returns_null hg
  | true =>
    rw [if_neg (by simp)]
    refine (any_key_loop_spec ns hheld (inorder t) [] [] S _ _ _ 0 rfl rfl hkeys ?_
      ⟨7, rfl⟩ rfl).shift
    rw [inorder_length]
    omega

theorem listed_increasing (ns : httpp_ns_t) {S : List http_var_t}
    (hsorted : Sorted _compare_vars (S.map some)) (hnames : (S.map (·.name)).Nodup) :
    (listed ns S).Pairwise fun a b => strcmp a.bytes b.bytes < 0 := by
  refine List.Pairwise.filter _ ?_
  rw [List.pairwise_map]
  rw [Sorted, List.pairwise_map] at hsorted
  rw [List.nodup_iff_pairwise_ne, List.pairwise_map] at hnames
  refine (hsorted.and hnames).imp ?_
  rintro a b ⟨hle, hne⟩
  have hne0 : strcmp a.name.bytes b.name.bytes ≠ 0 := fun h0 => hne ((compare_vars_eq a b).mp h0)
  exact lt_of_le_of_ne hle hne0

theorem mem_listed (ns : httpp_ns_t) {parser : http_parser_t} {f : CString → List CString}
    {S : List http_var_t} (hS : Lists (tree_of parser ns).avl S)
    (he : Entries (tree_of parser ns).values S f) (n : CString) :
    ∃ found, httpp_get_any_var parser ns (some n) = .ok found ∧
      (n ∈ listed ns S ↔ found ≠ none) := by
  rw [get_any_var_spec]
  unfold listed
  simp only [List.mem_filter, List.mem_map]
  split_ifs with hb
  · rcases get_param_var_spec hS he n with ⟨v, hv, hname, hrun⟩ | ⟨habsent, hrun⟩
    · exact ⟨some v, hrun, iff_of_true ⟨⟨v, hv, hname⟩, hb⟩ (by simp)⟩
    · refine ⟨none, hrun, iff_of_false ?_ (by simp)⟩
      rintro ⟨hmem, -⟩
      exact (he.filled n).mpr hmem habsent
  · exact ⟨none, rfl, iff_of_false (fun h => hb h.2) (by simp)⟩

/-! ## Runs -/

inductive ParserCall where
  | parse (http_data : Option Bytes) (len : Nat)
  | parse_postdata (body_data : Option Bytes) (len : Nat)
  | setvar (name value : Option CString)
  | deletevar (name : Option CString)
  | set_query_param (name value : Option CString)
  | set_post_param (name value : Option CString)

/-- One call, for what it does to the parser. -/
def parser_call (parser : http_parser_t) : ParserCall → C http_parser_t
  | .parse http_data len => return (← httpp_parse parser http_data len).2
  | .parse_postdata body_data len => return (← httpp_parse_postdata parser body_data len).2
  | .setvar name value => httpp_setvar parser name value
  | .deletevar name => httpp_deletevar parser name
  | .set_query_param name value => httpp_set_query_param parser name value
  | .set_post_param name value => httpp_set_post_param parser name value

theorem parser_call_tidy {parser : http_parser_t} (h : Tidy parser) (c : ParserCall) :
    Yields (parser_call parser c) Tidy := by
  cases c with
  | parse http_data len => exact (httpp_parse_tidy h http_data len).bind fun _ h' => yields_ok h'
  | parse_postdata body_data len =>
    exact (postdata_tidy h body_data len).bind fun _ h' => yields_ok h'
  | setvar name value => exact setvar_tidy h name value
  | deletevar name => exact deletevar_tidy h name
  | set_query_param name value =>
    exact (_httpp_set_param_held h.queryvars name value).bind fun _ h' =>
      yields_ok ⟨h.vars, h', h.postvars⟩
  | set_post_param name value =>
    exact (_httpp_set_param_held h.postvars name value).bind fun _ h' =>
      yields_ok ⟨h.vars, h.queryvars, h'⟩

/-- The trees of a parser in a state that calls lead to. -/
theorem calls_tidy {vars queryvars postvars : Pool} {calls : List ParserCall}
    {parser : http_parser_t}
    (hrun : (do calls.foldlM parser_call (← httpp_create vars queryvars postvars)) = .ok parser) :
    Tidy parser := by
  obtain ⟨parser0, hnew, -, hvars, hquery, hpost⟩ := create_parser_spec vars queryvars postvars
  rw [hnew, ok_bind] at hrun
  exact run_yields Tidy (fun c _ _ h => parser_call_tidy h c)
    ⟨⟨_, hvars⟩, ⟨_, hquery⟩, ⟨_, hpost⟩⟩ parser hrun

/-- **Namespaces.** In every state that a run of calls leads to, the array has the names in order
that can be looked up, each once, with a NULL behind them. -/
theorem namespace_views (vars queryvars postvars : Pool) (calls : List ParserCall)
    {parser : http_parser_t}
    (hrun : (do calls.foldlM parser_call (← httpp_create vars queryvars postvars)) = .ok parser)
    (ns : httpp_ns_t) :
    ∃ names : List CString,
      (∀ granted, Returns names granted (httpp_get_any_key parser ns granted)) ∧
      names.Pairwise (fun a b => strcmp a.bytes b.bytes < 0) ∧
      ∀ n, ∃ found, httpp_get_any_var parser ns (some n) = .ok found ∧
      (n ∈ names ↔ found ≠ none) := by
  obtain ⟨f, hf⟩ := (calls_tidy hrun).tree_of ns
  obtain ⟨S, hS, he⟩ := hf.entries
  exact ⟨listed ns S, get_any_key_spec ns hS, listed_increasing ns hS.sorted he.names,
    mem_listed ns hS he⟩

/-- Nine headers, one of them set twice, and a variable of the request line. -/
def nine_headers : List ParserCall :=
  ["c", "a", "h", "e", "__uri", "b", "g", "d", "a", "i", "f"].map fun s =>
    .setvar (some (.cut (ascii s))) (some HTTPP_VAR_URI)

/-- The array of the names has grown once. -/
theorem namespace_views_nine : ∃ parser,
    (do nine_headers.foldlM parser_call (← httpp_create ⟨id, id⟩ ⟨id, id⟩ ⟨id, id⟩)) = .ok parser ∧
      (∃ ret, httpp_get_any_key parser HTTPP_NS_HEADER (fun _ => true) = .ok (some ret) ∧
      ret.length = 16) ∧
      ∃ names : List CString,
      (∀ granted, Returns names granted (httpp_get_any_key parser HTTPP_NS_HEADER granted)) ∧
        names.Pairwise (fun a b => strcmp a.bytes b.bytes < 0) ∧
        ∀ n, ∃ found, httpp_get_any_var parser HTTPP_NS_HEADER (some n) = .ok found ∧
        (n ∈ names ↔ found ≠ none) := by
  have hall :
    (do nine_headers.foldlM parser_call (← httpp_create ⟨id, id⟩ ⟨id, id⟩ ⟨id, id⟩)).toOption.any
      (fun parser =>
        (httpp_get_any_key parser HTTPP_NS_HEADER fun _ => true).toOption.any
        fun keys : Option any_keys =>
        keys.any fun ret : any_keys => ret.length = 16) = true := by decide +kernel
  cases hrun : (do nine_headers.foldlM parser_call (← httpp_create ⟨id, id⟩ ⟨id, id⟩ ⟨id, id⟩)) with
  | error e => simp [hrun, Except.toOption] at hall
  | ok parser =>
    refine ⟨parser, rfl, ?_,
      namespace_views ⟨id, id⟩ ⟨id, id⟩ ⟨id, id⟩ nine_headers hrun HTTPP_NS_HEADER⟩
    cases hkeys : httpp_get_any_key parser HTTPP_NS_HEADER fun _ => true with
    | error e => simp [hrun, hkeys, Except.toOption] at hall
    | ok ret =>
      cases ret with
      | none => simp [hrun, hkeys, Except.toOption] at hall
      | some ret => exact ⟨ret, rfl, by simpa [hrun, hkeys, Except.toOption] using hall⟩

end Httpp
