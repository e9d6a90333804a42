import IcecastCommon.Avl.Run
import IcecastCommon.Httpp.Code

/-!
# The variables of a parser

What a tree of variables stands for is a value list for every name. Names that are not in the tree
have no values.
-/

namespace Httpp

open Lib Avl

/-! ## The order of the names -/

theorem compare_vars_total : TotalPreorder _compare_vars := by
  constructor
  · intro a b
    cases a with
    | none => cases b <;> simp [_compare_vars]
    | some a =>
      cases b with
      | none => simp [_compare_vars]
      | some b =>
        have := strcmp_flip a.name.bytes b.name.bytes
        simp only [_compare_vars]
        omega
  · intro a b c hab hbc
    cases a with
    | none => cases c <;> simp [_compare_vars]
    | some a =>
      cases b with
      | none => simp [_compare_vars] at hab
      | some b =>
        cases c with
        | none => simp [_compare_vars] at hbc
        | some c => exact strcmp_trans a.name.nulFree b.name.nulFree hab hbc

theorem compare_vars_eq (v w : http_var_t) :
    _compare_vars (some v) (some w) = 0 ↔ v.name = w.name := by
  show strcmp v.name.bytes w.name.bytes = 0 ↔ _
  rw [strcmp_eq_zero v.name.nulFree w.name.nulFree]
  constructor
  · exact CString.ext
  · intro h
    rw [h]

/-! ## The variables of a tree -/

/-- The variables of the tree, in order. -/
structure Lists (avl : avl_tree (Option http_var_t) (BitVec 32)) (S : List http_var_t) : Prop where
  held : ∃ t, Stores avl t ∧ keys t = S.map some
  compare_fun : avl.compare_fun = _compare_vars
  sorted : Sorted _compare_vars (S.map some)

namespace Lists

variable {avl : avl_tree (Option http_var_t) (BitVec 32)} {S : List http_var_t}

theorem reads (h : Lists avl S) : Reads avl (S.map some) := by
  obtain ⟨t, hst, hkeys⟩ := h.held
  rw [← hkeys]
  exact hst.reads

theorem ordered (h : Lists avl S) :
    ∃ t, Stores avl t ∧ keys t = S.map some ∧ TotalPreorder avl.compare_fun ∧
      Sorted avl.compare_fun (keys t) := by
  obtain ⟨t, hst, hkeys⟩ := h.held
  refine ⟨t, hst, hkeys, h.compare_fun ▸ compare_vars_total, ?_⟩
  rw [h.compare_fun, hkeys]
  exact h.sorted

theorem lookup (h : Lists avl S) (var : http_var_t) :
    (∃ v ∈ S, v.name = var.name ∧ avl_get_by_key avl (some var) = .ok (0, some (some v))) ∨
    ((∀ v ∈ S, v.name ≠ var.name) ∧ avl_get_by_key avl (some var) = .ok (-1, none)) := by
  obtain ⟨t, hst, hkeys, hcmp, hsorted⟩ := h.ordered
  rcases lookup_sequence hcmp (some var) hst hsorted with ⟨k, hk, heq, hrun⟩ | ⟨habsent, hrun⟩
  · left
    rw [hkeys] at hk
    obtain ⟨v, hv, rfl⟩ := List.mem_map.mp hk
    rw [h.compare_fun, compare_vars_eq] at heq
    exact ⟨v, hv, heq.symm, hrun⟩
  · right
    refine ⟨?_, hrun⟩
    intro v hv hname
    apply habsent (some v)
    · rw [hkeys]
      exact List.mem_map_of_mem hv
    · rw [h.compare_fun, compare_vars_eq]
      exact hname.symm

theorem insert (h : Lists avl S) (var : http_var_t) :
    ∃ avl' S', avl_insert avl (some var) = .ok (0, avl') ∧ Lists avl' S' ∧ S'.Perm (var :: S) := by
  obtain ⟨t, hst, hkeys, hcmp, hsorted⟩ := h.ordered
  obtain ⟨avl', t', hrun, hdone, hkeys', hsorted'⟩ := insert_sequence hcmp (some var) hst hsorted
  rw [hkeys, List.filter_map, List.filter_map] at hkeys'
  refine ⟨avl', S.filter ((fun x => decide (avl.compare_fun x (some var) < 0)) ∘ some) ++ [var] ++
    S.filter ((fun x => decide (0 ≤ avl.compare_fun x (some var))) ∘ some), hrun,
    ⟨⟨t', hdone.stores, ?_⟩, ?_, ?_⟩, ?_⟩
  · rw [hkeys', List.map_append, List.map_append]
    rfl
  · rw [hdone.compare_fun, h.compare_fun]
  · rw [h.compare_fun, hkeys'] at hsorted'
    rw [List.map_append, List.map_append]
    exact h.compare_fun ▸ hsorted'
  · have hnot : ((fun x => decide (0 ≤ avl.compare_fun x (some var))) ∘ some : http_var_t → Bool) =
        fun v => !((fun x => decide (avl.compare_fun x (some var) < 0)) ∘ some) v := by
      funext v
      simp only [Function.comp_apply, ← decide_not, not_lt]
    rw [hnot, List.append_assoc]
    refine List.perm_middle.trans (List.Perm.cons var ?_)
    exact List.filter_append_perm _ S

theorem delete (h : Lists avl S) (var : http_var_t) (free_key_fun : Option http_var_t → Int) :
    (∃ avl' S' v, avl_delete avl (some var) (some free_key_fun) = .ok (0, avl', [some v]) ∧
      Lists avl' S' ∧
      v.name = var.name ∧ S.Perm (v :: S')) ∨
    ((∀ v ∈ S, v.name ≠ var.name) ∧
      ∃ avl', avl_delete avl (some var) (some free_key_fun) = .ok (-1, avl', []) ∧
      Lists avl' S) := by
  obtain ⟨t, hst, hkeys, hcmp, hsorted⟩ := h.ordered
  rcases delete_sequence hcmp (some var) (some free_key_fun) hst hsorted with
    ⟨avl', t', i, hrun, hdone, hsorted'⟩ | ⟨habsent, m', t', hrun, hst', hlab⟩
  · left
    obtain ⟨A, B, hA, hB⟩ := hdone.keys
    rw [hkeys] at hA
    obtain ⟨SA, SB', rfl, rfl, hSB⟩ := List.map_eq_append_iff.mp hA
    obtain ⟨v, SB, rfl, hv, rfl⟩ := List.map_eq_cons_iff.mp hSB
    have hfound := hdone.found
    rw [h.compare_fun, ← hv, compare_vars_eq] at hfound
    rw [← List.map_append] at hB
    refine ⟨avl', SA ++ SB, v, ?_, ⟨⟨t', hdone.stores, hB⟩, ?_, ?_⟩, hfound.symm, List.perm_middle⟩
    · rw [hrun, hv]
      rfl
    · rw [hdone.compare_fun, h.compare_fun]
    · rw [← hB]
      exact h.compare_fun ▸ hsorted'
  · right
    constructor
    · intro v hv hname
      apply habsent (some v)
      · rw [hkeys]
        exact List.mem_map_of_mem hv
      · rw [h.compare_fun, compare_vars_eq]
        exact hname.symm
    · refine ⟨_, hrun, ⟨t', hst', ?_⟩, h.compare_fun, h.sorted⟩
      rw [keys_of_labels, hlab, ← keys_of_labels, hkeys]

end Lists

/-! ## Their values -/

/-- The variables in `S` have the values `f`, one variable a name and one cell a variable. -/
structure Entries (values : Memory (List CString)) (S : List http_var_t)
    (f : CString → List CString) : Prop where
  names : (S.map (·.name)).Nodup
  cells : (S.map (·.value)).Nodup
  stored : ∀ v ∈ S, ∃ a, v.value = some a ∧ values.get a = some (f v.name)
  filled : ∀ n, f n ≠ [] ↔ ∃ v ∈ S, v.name = n

namespace Entries

variable {values values' : Memory (List CString)} {S S' : List http_var_t}
  {f : CString → List CString}

theorem perm (h : Entries values S f) (hS : S.Perm S') : Entries values S' f where
  names := (hS.map _).nodup_iff.mp h.names
  cells := (hS.map _).nodup_iff.mp h.cells
  stored v hv := h.stored v (hS.mem_iff.mpr hv)
  filled n := by
    rw [h.filled]
    simp only [hS.mem_iff]

theorem frame (h : Entries values S f)
    (hsame : ∀ v ∈ S, ∀ a, v.value = some a → values'.get a = values.get a) :
    Entries values' S f where
  names := h.names
  cells := h.cells
  stored v hv := by
    obtain ⟨a, ha, hget⟩ := h.stored v hv
    exact ⟨a, ha, (hsame v hv a ha).trans hget⟩
  filled := h.filled

theorem push (h : Entries values S f) {name : CString} {a : Nat} {vs : List CString}
    (habsent : f name = []) (hcell : ∀ v ∈ S, v.value ≠ some a) (hget : values.get a = some vs)
    (hvs : vs ≠ []) :
    Entries values ({ name, value := some a } :: S) (Function.update f name vs) := by
  have hother : ∀ v ∈ S, v.name ≠ name := by
    rintro v hv rfl
    exact (h.filled v.name).mpr ⟨v, hv, rfl⟩ habsent
  constructor
  · rw [List.map_cons, List.nodup_cons]
    refine ⟨?_, h.names⟩
    intro hmem
    obtain ⟨v, hv, hname⟩ := List.mem_map.mp hmem
    exact hother v hv hname
  · rw [List.map_cons, List.nodup_cons]
    refine ⟨?_, h.cells⟩
    intro hmem
    obtain ⟨v, hv, hvalue⟩ := List.mem_map.mp hmem
    exact hcell v hv hvalue
  · intro v hv
    rcases List.mem_cons.mp hv with rfl | hv
    · exact ⟨a, rfl, by rw [hget, Function.update_self]⟩
    · rw [Function.update_of_ne (hother v hv)]
      exact h.stored v hv
  · intro n
    by_cases hn : n = name
    · subst hn
      simp [hvs]
    · have hn' : name ≠ n := fun heq => hn heq.symm
      rw [Function.update_of_ne hn, h.filled]
      simp [hn']

theorem pop {v : http_var_t} (h : Entries values (v :: S) f) :
    Entries values S (Function.update f v.name []) := by
  have hnames := h.names
  rw [List.map_cons, List.nodup_cons] at hnames
  have hother : ∀ w ∈ S, w.name ≠ v.name := by
    intro w hw heq
    exact hnames.1 (heq ▸ List.mem_map_of_mem hw)
  constructor
  · exact hnames.2
  · exact (List.nodup_cons.mp h.cells).2
  · intro w hw
    rw [Function.update_of_ne (hother w hw)]
    exact h.stored w (List.mem_cons_of_mem v hw)
  · intro n
    by_cases hn : n = v.name
    · subst hn
      simp only [Function.update_self, ne_eq, not_true, false_iff, not_exists, not_and]
      exact hother
    · have hn' : v.name ≠ n := fun heq => hn heq.symm
      rw [Function.update_of_ne hn, h.filled]
      simp [hn']

theorem change {v : http_var_t} {a : Nat} {vs : List CString} (h : Entries values S f) (hv : v ∈ S)
    (ha : v.value = some a) (hget : values'.get a = some vs) (hvs : vs ≠ [])
    (hsame : ∀ b, b ≠ a → values'.get b = values.get b) :
    Entries values' S (Function.update f v.name vs) := by
  constructor
  · exact h.names
  · exact h.cells
  · intro w hw
    by_cases hwv : w.name = v.name
    · obtain rfl : w = v := List.inj_on_of_nodup_map h.names hw hv hwv
      exact ⟨a, ha, by rw [hget, Function.update_self]⟩
    · obtain ⟨b, hb, hgetb⟩ := h.stored w hw
      have hba : b ≠ a := by
        rintro rfl
        exact hwv (congrArg _ (List.inj_on_of_nodup_map h.cells hw hv (hb.trans ha.symm)))
      exact ⟨b, hb, by rw [hsame b hba, hgetb, Function.update_of_ne hwv]⟩
  · intro n
    by_cases hn : n = v.name
    · subst hn
      simp only [Function.update_self, ne_eq, hvs, not_false_iff, true_iff]
      exact ⟨v, hv, rfl⟩
    · rw [Function.update_of_ne hn, h.filled]

end Entries

/-- The tree has the values `f`. -/
structure Maps (tree : var_tree) (f : CString → List CString) : Prop where
  entries : ∃ S, Lists tree.avl S ∧ Entries tree.values S f
  generous : tree.values.Generous

variable {tree : var_tree} {S : List http_var_t} {f : CString → List CString}

/-! ## Looking up -/

theorem get_param_var_spec (hS : Lists tree.avl S) (h : Entries tree.values S f) (name : CString) :
    (∃ v ∈ S, v.name = name ∧ _httpp_get_param_var tree name = .ok (some v)) ∨
    (f name = [] ∧ _httpp_get_param_var tree name = .ok none) := by
  unfold _httpp_get_param_var
  rcases hS.lookup { name, value := none } with ⟨v, hv, hname, hrun⟩ | ⟨habsent, hrun⟩
  · left
    refine ⟨v, hv, hname, ?_⟩
    rw [hrun]
    rfl
  · right
    constructor
    · by_contra hne
      obtain ⟨v, hv, hname⟩ := (h.filled name).mp hne
      exact habsent v hv hname
    · rw [hrun]
      rfl

theorem Maps.get_param (h : Maps tree f) (name : CString) :
    _httpp_get_param tree name = .ok (f name).head? := by
  obtain ⟨S, hS, he⟩ := h.entries
  unfold _httpp_get_param
  rcases get_param_var_spec hS he name with ⟨v, hv, rfl, hrun⟩ | ⟨hnone, hrun⟩
  · obtain ⟨a, ha, hget⟩ := he.stored v hv
    simp only [hrun, ok_bind, ha, Memory.load_eq hget, pure_eq_ok]
  · rw [hrun, hnone]
    rfl

/-! ## Changes -/

theorem var_tree.insert_spec (hS : Lists tree.avl S) (var : http_var_t) :
    ∃ avl' S', tree.insert var = .ok { tree with avl := avl' } ∧ Lists avl' S' ∧
      S'.Perm (var :: S) := by
  obtain ⟨avl', S', hrun, hS', hperm⟩ := hS.insert var
  refine ⟨avl', S', ?_, hS', hperm⟩
  unfold insert
  rw [hrun]
  rfl

theorem var_tree.delete_spec (hS : Lists tree.avl S) (h : Entries tree.values S f)
    (var : http_var_t) :
    ∃ tree' S', tree.delete var = .ok tree' ∧ Lists tree'.avl S' ∧
      Entries tree'.values S' (Function.update f var.name []) ∧ S' ⊆ S ∧
      (∀ a, (∀ v ∈ S, v.value ≠ some a) → tree'.values.get a = tree.values.get a) ∧
      tree'.values.grants = tree.values.grants := by
  unfold delete
  rcases hS.delete var fun _ => 1 with ⟨avl', S', v, hrun, hS', hname, hperm⟩ |
    ⟨habsent, avl', hrun, hS'⟩
  · obtain ⟨a, ha, hget⟩ := h.stored v (hperm.mem_iff.mpr List.mem_cons_self)
    obtain ⟨values', hfree, -, hsame, hgrants⟩ := Memory.free_eq hget
    have hpop := h.perm hperm
    have hother : ∀ w ∈ S', ∀ b, w.value = some b → b ≠ a := by
      intro w hw b hb hba
      have hcells := hpop.cells
      rw [List.map_cons, List.nodup_cons] at hcells
      apply hcells.1
      rw [ha, ← hba, ← hb]
      exact List.mem_map_of_mem hw
    refine ⟨{ avl := avl', values := values' }, S', ?_, hS', ?_, ?_, ?_, hgrants⟩
    · rw [hrun]
      simp only [ok_bind, List.foldlM_cons, List.foldlM_nil, _free_vars, ha, hfree, pure_eq_ok]
    · rw [← hname]
      exact hpop.pop.frame fun w hw b hb => hsame b (hother w hw b hb)
    · exact fun w hw => hperm.mem_iff.mpr (List.mem_cons_of_mem v hw)
    · intro b hb
      apply hsame
      rintro rfl
      exact hb v (hperm.mem_iff.mpr List.mem_cons_self) ha
  · refine ⟨{ avl := avl', values := tree.values }, S, ?_, hS', ?_, List.Subset.refl S,
      fun a _ => rfl, rfl⟩
    · rw [hrun]
      rfl
    · have hnone : f var.name = [] := by
        by_contra hne
        obtain ⟨v, hv, hname⟩ := (h.filled var.name).mp hne
        exact habsent v hv hname
      rw [← hnone, Function.update_eq_self]
      exact h

theorem Maps.alloc (h : Maps tree f) (vs : List CString) :
    ∃ a values' S, tree.values.malloc vs = (some a, values') ∧ values'.get a = some vs ∧
      values'.Generous ∧
      Lists tree.avl S ∧ Entries values' S f ∧ ∀ v ∈ S, v.value ≠ some a := by
  obtain ⟨S, hS, he⟩ := h.entries
  obtain ⟨a, values', hrun, hfresh, hget, hsame, hgen⟩ := tree.values.malloc_eq h.generous vs
  have hnew : ∀ v ∈ S, v.value ≠ some a := by
    intro v hv ha
    obtain ⟨b, hb, hgetb⟩ := he.stored v hv
    rw [ha, Option.some.injEq] at hb
    rw [← hb, hfresh] at hgetb
    cases hgetb
  refine ⟨a, values', S, hrun, hget, hgen, hS, he.frame ?_, hnew⟩
  intro v hv b hb
  apply hsame
  rintro rfl
  exact hnew v hv hb

theorem replace_spec (tree : var_tree) (hS : Lists tree.avl S) (h : Entries tree.values S f)
    (hgen : tree.values.Generous) {name : CString} {a : Nat} {vs : List CString} (hvs : vs ≠ [])
    (hget : tree.values.get a = some vs) (hnew : ∀ v ∈ S, v.value ≠ some a) (var : http_var_t)
    (hvar : var.name = name) :
    ∃ tree1 tree', tree.delete var = .ok tree1 ∧
      tree1.insert { name, value := some a } = .ok tree' ∧
      Maps tree' (Function.update f name vs) := by
  obtain ⟨tree1, S1, hdelete, hS1, he1, hsub, hsame, hgrants⟩ := var_tree.delete_spec hS h var
  obtain ⟨avl', S', hinsert, hS', hperm⟩ := tree1.insert_spec hS1 { name, value := some a }
  rw [hvar] at he1
  have hget1 : tree1.values.get a = some vs := by rw [hsame a hnew, hget]
  have hpush := he1.push (Function.update_self ..) (fun v hv => hnew v (hsub hv)) hget1 hvs
  rw [Function.update_idem] at hpush
  refine ⟨tree1, _, hdelete, hinsert, ⟨S', hS', hpush.perm hperm.symm⟩, ?_⟩
  show tree1.values.Generous
  unfold Memory.Generous
  rw [hgrants]
  exact hgen

theorem insert_new_spec (tree : var_tree) (hS : Lists tree.avl S) (h : Entries tree.values S f)
    (hgen : tree.values.Generous) {name : CString} {a : Nat} {vs : List CString} (hvs : vs ≠ [])
    (hget : tree.values.get a = some vs) (hnew : ∀ v ∈ S, v.value ≠ some a)
    (habsent : f name = []) :
    ∃ tree', tree.insert { name, value := some a } = .ok tree' ∧
      Maps tree' (Function.update f name vs) := by
  obtain ⟨avl', S', hinsert, hS', hperm⟩ := tree.insert_spec hS { name, value := some a }
  exact ⟨_, hinsert, ⟨S', hS', (h.push habsent hnew hget hvs).perm hperm.symm⟩, hgen⟩

theorem setvar_spec {parser : http_parser_t} (h : Maps parser.vars f) (name value : CString) :
    ∃ vars', httpp_setvar parser (some name) (some value) = .ok { parser with vars := vars' } ∧
      Maps vars' (Function.update f name [value]) := by
  obtain ⟨a, values', S, hmalloc, hget, hgen, hS, he, hnew⟩ := h.alloc [value]
  have hmaps : Maps { parser.vars with values := values' } f := ⟨⟨S, hS, he⟩, hgen⟩
  have hgetvar :
      httpp_getvar { parser with vars := { parser.vars with values := values' } } (some name) =
      .ok (f name).head? := hmaps.get_param name
  unfold httpp_setvar
  simp only [hmalloc, hgetvar, ok_bind]
  by_cases habsent : f name = []
  · obtain ⟨tree', hinsert, hmaps'⟩ :=
      insert_new_spec { parser.vars with values := values' } hS he hgen
        (List.cons_ne_nil value []) hget hnew habsent
    refine ⟨tree', ?_, hmaps'⟩
    rw [if_pos (by rw [habsent]; rfl), hinsert]
    rfl
  · obtain ⟨tree1, tree', hdelete, hinsert, hmaps'⟩ :=
      replace_spec { parser.vars with values := values' } hS he hgen
        (List.cons_ne_nil value []) hget hnew
        { name, value := some a } rfl
    refine ⟨tree', ?_, hmaps'⟩
    rw [if_neg (by rwa [List.head?_eq_none_iff]), hdelete, ok_bind, hinsert]
    rfl

theorem deletevar_spec {parser : http_parser_t} (h : Maps parser.vars f) (name : CString) :
    ∃ vars', httpp_deletevar parser (some name) = .ok { parser with vars := vars' } ∧
      Maps vars' (Function.update f name []) := by
  obtain ⟨S, hS, he⟩ := h.entries
  obtain ⟨vars', S', hdelete, hS', he', -, -, hgrants⟩ :=
    var_tree.delete_spec hS he { name, value := none }
  refine ⟨vars', ?_, ⟨S', hS', he'⟩, ?_⟩
  · simp only [httpp_deletevar, hdelete, ok_bind, pure_eq_ok]
  · unfold Memory.Generous
    rw [hgrants]
    exact h.generous

theorem set_param_spec (h : Maps tree f) (name value : CString) :
    ∃ tree', _httpp_set_param_nocopy tree (some name) (some value) false = .ok tree' ∧
      Maps tree' (Function.update f name (f name ++ [value])) := by
  obtain ⟨S, hS, he⟩ := h.entries
  unfold _httpp_set_param_nocopy
  rcases get_param_var_spec hS he name with ⟨v, hv, rfl, hrun⟩ | ⟨habsent, hrun⟩
  · obtain ⟨a, ha, hget⟩ := he.stored v hv
    refine ⟨{ tree with values := tree.values.set a (f v.name ++ [value]) }, ?_,
      ⟨S, hS, ?_⟩, h.generous⟩
    · simp only [hrun, ok_bind, ha, Memory.update_eq hget, pure_eq_ok]
    · exact he.change hv ha (tree.values.get_set_self a _) (by simp) fun b hb =>
        tree.values.get_set_ne _ hb
  · obtain ⟨a, values', S', hmalloc, hget, hgen, hS', he', hnew⟩ := h.alloc [value]
    obtain ⟨tree', hinsert, hmaps'⟩ := insert_new_spec { tree with values := values' } hS' he' hgen
      (List.cons_ne_nil value []) hget hnew habsent
    refine ⟨tree', ?_, ?_⟩
    · simp only [hrun, ok_bind, hmalloc, hinsert]
    · rw [habsent]
      exact hmaps'

theorem var_tree.new_spec (pool : Pool) :
    ∃ tree, var_tree.new pool = .ok tree ∧ Maps tree fun _ => [] := by
  let m : Memory (avl_node (Option http_var_t) (BitVec 32)) := ⟨∅, fun n => some (pool.nodes n)⟩
  have hm : m.Generous := fun _ => rfl
  obtain ⟨avl, hnew⟩ : ∃ avl, avl_tree_new _compare_vars m = some avl := ⟨_, rfl⟩
  obtain ⟨hst, hfun⟩ := avl_tree_new_spec hm hnew
  refine ⟨{ avl, values := ⟨∅, fun n => some (pool.values n)⟩ }, ?_,
    ⟨[], ⟨⟨_, hst, rfl⟩, hfun, ?_⟩, ?_⟩, fun _ => rfl⟩
  · change avl_tree_new _compare_vars ⟨∅, fun n => some (pool.nodes n)⟩ = some avl at hnew
    unfold var_tree.new
    rw [hnew]
    rfl
  · exact List.Pairwise.nil
  · exact ⟨List.nodup_nil, List.nodup_nil, by simp, by simp⟩

/-! ## Runs of calls -/

/-- A call that changes variables. The names and values are not NULL. -/
inductive VarCall where
  | setvar (name value : CString)
  | deletevar (name : CString)
  | set_defaults (list : List (CString × List CString))

def var_call (parser : http_parser_t) : VarCall → C http_parser_t
  | .setvar name value => httpp_setvar parser (some name) (some value)
  | .deletevar name => httpp_deletevar parser (some name)
  | .set_defaults defaults =>
    httpp_initialize parser (defaults.map fun d => (some d.1, d.2.map some))

/-- The names that a call gives a value or takes it from. -/
def VarCall.changes : VarCall → List (CString × Option CString)
  | .setvar name value => [(name, some value)]
  | .deletevar name => [(name, none)]
  | .set_defaults defaults => defaults.flatMap fun d => d.2.map fun value => (d.1, some value)

/-- The value that the last change of the name left it with. -/
def last_change (changes : List (CString × Option CString)) (name : CString) : Option CString :=
  (changes.reverse.find? fun change => change.1 = name).bind (·.2)

theorem last_change_append (changes : List (CString × Option CString)) (name : CString)
    (value : Option CString) :
    (fun n => (last_change (changes ++ [(name, value)]) n).toList) =
      Function.update (fun n => (last_change changes n).toList) name value.toList := by
  funext n
  unfold last_change
  rw [List.reverse_append, List.reverse_singleton, List.singleton_append, List.find?_cons]
  by_cases hn : name = n
  · subst hn
    simp
  · have hn' : n ≠ name := fun heq => hn heq.symm
    rw [Function.update_of_ne hn']
    simp [hn]

/-- The variables are what the changes left. -/
def Kept (parser : http_parser_t) (changes : List (CString × Option CString)) : Prop :=
  Maps parser.vars fun name => (last_change changes name).toList

variable {parser : http_parser_t} {changes : List (CString × Option CString)}

theorem Kept.setvar (h : Kept parser changes) (name value : CString) :
    ∃ parser', httpp_setvar parser (some name) (some value) = .ok parser' ∧
      Kept parser' (changes ++ [(name, some value)]) := by
  obtain ⟨vars', hrun, hmaps⟩ := setvar_spec h name value
  refine ⟨_, hrun, ?_⟩
  unfold Kept
  rw [last_change_append]
  exact hmaps

theorem Kept.deletevar (h : Kept parser changes) (name : CString) :
    ∃ parser', httpp_deletevar parser (some name) = .ok parser' ∧
      Kept parser' (changes ++ [(name, none)]) := by
  obtain ⟨vars', hrun, hmaps⟩ := deletevar_spec h name
  refine ⟨_, hrun, ?_⟩
  unfold Kept
  rw [last_change_append]
  exact hmaps

theorem Kept.values (h : Kept parser changes) (name : CString) (values : List CString) :
    ∃ parser',
      (values.map some).foldlM (fun parser value => httpp_setvar parser (some name) value) parser =
      .ok parser' ∧
      Kept parser' (changes ++ values.map fun value => (name, some value)) := by
  induction values generalizing parser changes with
  | nil =>
    refine ⟨parser, rfl, ?_⟩
    rw [List.map_nil, List.append_nil]
    exact h
  | cons value values ih =>
    obtain ⟨parser1, hset, h1⟩ := h.setvar name value
    obtain ⟨parser', hrun, h'⟩ := ih h1
    refine ⟨parser', ?_, ?_⟩
    · rw [List.map_cons, List.foldlM_cons, hset, ok_bind, hrun]
    · rw [List.append_assoc] at h'
      exact h'

theorem Kept.defaults (h : Kept parser changes) (defaults : List (CString × List CString)) :
    ∃ parser', httpp_initialize parser (defaults.map fun d => (some d.1, d.2.map some)) =
      .ok parser' ∧
      Kept parser' (changes ++ (VarCall.set_defaults defaults).changes) := by
  unfold httpp_initialize
  induction defaults generalizing parser changes with
  | nil =>
    refine ⟨parser, rfl, ?_⟩
    simp only [VarCall.changes, List.flatMap_nil, List.append_nil]
    exact h
  | cons d defaults ih =>
    obtain ⟨parser1, hset, h1⟩ := h.values d.1 d.2
    obtain ⟨parser', hrun, h'⟩ := ih h1
    refine ⟨parser', ?_, ?_⟩
    · rw [List.map_cons, List.foldlM_cons]
      simp only [hset, ok_bind, hrun]
    · rw [List.append_assoc] at h'
      simp only [VarCall.changes, List.flatMap_cons]
      exact h'

theorem Kept.call (h : Kept parser changes) (c : VarCall) :
    ∃ parser', var_call parser c = .ok parser' ∧ Kept parser' (changes ++ c.changes) := by
  cases c with
  | setvar name value => exact h.setvar name value
  | deletevar name => exact h.deletevar name
  | set_defaults defaults => exact h.defaults defaults

theorem Kept.run (h : Kept parser changes) (calls : List VarCall) :
    ∃ parser', calls.foldlM var_call parser = .ok parser' ∧
      Kept parser' (changes ++ calls.flatMap VarCall.changes) := by
  induction calls generalizing parser changes with
  | nil =>
    refine ⟨parser, rfl, ?_⟩
    rw [List.flatMap_nil, List.append_nil]
    exact h
  | cons c calls ih =>
    obtain ⟨parser1, hcall, h1⟩ := h.call c
    obtain ⟨parser', hrun, h'⟩ := ih h1
    refine ⟨parser', ?_, ?_⟩
    · rw [List.foldlM_cons, hcall, ok_bind, hrun]
    · rw [List.append_assoc] at h'
      rw [List.flatMap_cons]
      exact h'

theorem Kept.getvar (h : Kept parser changes) (name : CString) :
    httpp_getvar parser (some name) = .ok (last_change changes name) := by
  have hrun := Maps.get_param h name
  rw [Option.head?_toList] at hrun
  exact hrun

/-- One entry for a name, with one value. -/
def Single (tree : var_tree) : Prop :=
  ∃ S : List http_var_t, Reads tree.avl (S.map some) ∧ (S.map (·.name)).Nodup ∧
    ∀ v ∈ S, ∃ value, tree.values.load v.value = .ok [value]

theorem Kept.single (h : Kept parser changes) : Single parser.vars := by
  obtain ⟨S, hS, he⟩ := h.entries
  refine ⟨S, hS.reads, he.names, ?_⟩
  intro v hv
  obtain ⟨a, ha, hget⟩ := he.stored v hv
  obtain ⟨value, hvalue⟩ : ∃ value, last_change changes v.name = some value := by
    have hfilled := (he.filled v.name).mpr ⟨v, hv, rfl⟩
    rwa [ne_eq, Option.toList_eq_nil_iff, ← ne_eq, Option.ne_none_iff_exists'] at hfilled
  refine ⟨value, ?_⟩
  rw [ha, Memory.load_eq hget, hvalue]
  rfl

theorem create_parser_spec (vars queryvars postvars : Pool) :
    ∃ parser, httpp_create vars queryvars postvars = .ok parser ∧ parser.uri = none ∧
      Maps parser.vars (fun _ => []) ∧ Maps parser.queryvars (fun _ => []) ∧
      Maps parser.postvars fun _ => [] := by
  obtain ⟨t1, h1, hm1⟩ := var_tree.new_spec vars
  obtain ⟨t2, h2, hm2⟩ := var_tree.new_spec queryvars
  obtain ⟨t3, h3, hm3⟩ := var_tree.new_spec postvars
  refine ⟨{ req_type := .httpp_req_none, uri := none, vars := t1, queryvars := t2, postvars := t3 },
    ?_, rfl, hm1, hm2, hm3⟩
  unfold httpp_create
  rw [h1, h2, h3]
  rfl

/-- **A finite map.** After any calls a name has the value of its last change, in its only entry. -/
theorem vars_map (vars queryvars postvars : Pool) (calls : List VarCall) :
    ∃ parser, (do calls.foldlM var_call (← httpp_create vars queryvars postvars)) = .ok parser ∧
      (∀ name, httpp_getvar parser (some name) =
      .ok (last_change (calls.flatMap VarCall.changes) name)) ∧
      Single parser.vars := by
  obtain ⟨parser0, hnew, -, hempty, -⟩ := create_parser_spec vars queryvars postvars
  have hkept : Kept parser0 [] := hempty
  obtain ⟨parser, hrun, h⟩ := hkept.run calls
  refine ⟨parser, ?_, h.getvar, h.single⟩
  rw [hnew, ok_bind, hrun]

end Httpp
