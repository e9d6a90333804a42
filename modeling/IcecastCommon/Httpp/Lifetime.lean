import IcecastCommon.Avl.Accounts
import IcecastCommon.Httpp.Changes
import IcecastCommon.Httpp.Params
import Mathlib.Data.List.Infix

/-!
# The lifetime of a parser

Each tree of a parser has one node and one cell of values for each of its variables, and nothing
else is allocated for it. Whoever gives back the last reference gives all of that back.
-/

namespace Httpp

open Lib Avl

/-! ## The cells of a tree -/

/-- No cells. -/
def nothing {α : Type} : Memory α := ⟨∅, fun _ => none⟩

theorem apart_nothing {α : Type} (p : Ptr) : Apart (nothing : Memory α) p := fun _ _ => rfl

/-- `k` cells of values, which hold no pointers to others. -/
abbrev Cells (k : Nat) : Memory (List CString) → Prop := Encloses (fun _ => []) nothing k

/-- The tree has a node for each of its variables, and there are `d` more cells of values than
variables. -/
def Tallied (d : Nat) (tree : var_tree) : Prop :=
  ∃ S, Lists tree.avl S ∧ (∀ v ∈ S, v.value ≠ none) ∧ Keeps nothing (S.length + 1) tree.avl.mem ∧
    Cells (S.length + d) tree.values

section Tree

variable {tree : var_tree} {d : Nat}

theorem no_links (vs : List CString) (q : Ptr)
    (_ : q ∈ (fun _ : List CString => ([] : List Ptr)) vs) :
    Apart (nothing : Memory (List CString)) q := apart_nothing q

theorem Tallied.malloc (h : Tallied d tree) (vs : List CString) :
    (tree.values.malloc vs).1 = none ∧ Tallied d { tree with values := (tree.values.malloc vs).2 } ∨
      ∃ a, (tree.values.malloc vs).1 = some a ∧
      Tallied (d + 1) { tree with values := (tree.values.malloc vs).2 } := by
  obtain ⟨S, hS, hvalued, hnodes, hvalues⟩ := h
  rcases hvalues.malloc (no_links vs) with ⟨hnone, h1⟩ | ⟨a, hsome, -, h1⟩
  · exact .inl ⟨hnone, S, hS, hvalued, hnodes, h1⟩
  · exact .inr ⟨a, hsome, S, hS, hvalued, hnodes, h1⟩

theorem Tallied.update (h : Tallied d tree) (p : Ptr) (f : List CString → List CString) :
    Yields (tree.values.update p f) fun values => Tallied d { tree with values } := by
  obtain ⟨S, hS, hvalued, hnodes, hvalues⟩ := h
  intro values hrun
  exact ⟨S, hS, hvalued, hnodes,
    hvalues.update (apart_nothing p) (fun x _ => no_links (f x)) values hrun⟩

theorem Tallied.insert (h : Tallied (d + 1) tree) (name : CString) (a : Nat) :
    Yields (tree.insert { name, value := some a }) (Tallied d) := by
  obtain ⟨S, hS, hvalued, hnodes, hvalues⟩ := h
  obtain ⟨avl', S', hrun, hS', hperm⟩ := hS.insert { name, value := some a }
  have hlength : S'.length = S.length + 1 := hperm.length_eq
  have hvalued' : ∀ v ∈ S', v.value ≠ none := by
    intro v hv
    rcases List.mem_cons.mp (hperm.mem_iff.mp hv) with rfl | hv
    · exact Option.some_ne_none a
    · exact hvalued v hv
  obtain ⟨-, ⟨-, hnodes'⟩ | ⟨hfailed, -⟩⟩ := hnodes.avl_insert (apart_nothing _) _ _ hrun
  · have hcount : S.length + (d + 1) = S'.length + d := by omega
    unfold var_tree.insert
    rw [hrun]
    exact yields_ok ⟨S', hS', hvalued', hlength ▸ hnodes', hcount ▸ hvalues⟩
  · exact absurd (show (0 : Int) = -1 from hfailed) (by decide)

theorem Tallied.delete (h : Tallied d tree) (var : http_var_t) :
    Yields (tree.delete var) (Tallied d) := by
  obtain ⟨S, hS, hvalued, hnodes, hvalues⟩ := h
  unfold var_tree.delete
  rcases hS.delete var fun _ => 1 with ⟨avl', S', v, hrun, hS', -, hperm⟩ | ⟨-, avl', hrun, hS'⟩
  · have hlength : S.length = S'.length + 1 := hperm.length_eq
    obtain ⟨a, ha⟩ :=
      Option.ne_none_iff_exists'.mp (hvalued v (hperm.mem_iff.mpr List.mem_cons_self))
    have hvalued' : ∀ w ∈ S', w.value ≠ none :=
      fun w hw => hvalued w (hperm.mem_iff.mpr (List.mem_cons_of_mem v hw))
    obtain ⟨-, ⟨j, hj, -, hnodes'⟩ | ⟨hfailed, -⟩⟩ := hnodes.avl_delete (apart_nothing _) _ _ _ hrun
    · have hj' : j = S'.length + 1 := by omega
      have hfree : [some v].foldlM _free_vars tree.values = tree.values.free (some a) := by
        simp only [List.foldlM_cons, List.foldlM_nil, _free_vars, ha, bind_pure]
      rw [hrun, ok_bind]
      refine Yields.bind (hfree ▸ hvalues.free rfl) ?_
      rintro values ⟨k, hk, hvalues'⟩
      have hk' : k = S'.length + d := by omega
      exact yields_ok ⟨S', hS', hvalued', hj' ▸ hnodes', hk' ▸ hvalues'⟩
    · exact absurd (show (0 : Int) = -1 from hfailed) (by decide)
  · obtain ⟨-, ⟨j, -, hfound, -⟩ | ⟨-, hnodes'⟩⟩ := hnodes.avl_delete (apart_nothing _) _ _ _ hrun
    · exact absurd (show (-1 : Int) = 0 from hfound) (by decide)
    · rw [hrun]
      exact yields_ok ⟨S, hS', hvalued, hnodes', hvalues⟩

theorem Tallied.set_param (h : Tallied 0 tree) (name value : Option CString) (replace : Bool) :
    Yields (_httpp_set_param_nocopy tree name value replace) (Tallied 0) := by
  match name, value with
  | none, _ => exact yields_ok h
  | some _, none => exact yields_ok h
  | some name, some value =>
    refine yields_bind fun found _ => ?_
    have hmalloc := h.malloc [value]
    generalize tree.values.malloc [value] = r at hmalloc ⊢
    obtain ⟨p, values⟩ := r
    cases replace with
    | false =>
      cases found with
      | some found => exact (h.update _ _).bind fun values h1 => yields_ok h1
      | none =>
        obtain ⟨rfl, h1⟩ | ⟨a, rfl, h1⟩ := hmalloc
        · exact yields_ok h1
        · exact h1.insert name a
    | true =>
      obtain ⟨rfl, h1⟩ | ⟨a, rfl, h1⟩ := hmalloc
      · exact yields_ok h1
      · cases found with
        | some found => exact (h1.delete found).bind fun tree2 h2 => h2.insert name a
        | none => exact h1.insert name a

end Tree

theorem Tallied.setvar {parser : http_parser_t} (h : Tallied 0 parser.vars)
    (name value : Option CString) :
    Yields (httpp_setvar parser name value) fun new => Tallied 0 new.vars := by
  match name, value with
  | none, _ => exact yields_ok h
  | some _, none => exact yields_ok h
  | some name, some value =>
    unfold httpp_setvar
    dsimp only
    have hmalloc := h.malloc [value]
    generalize parser.vars.values.malloc [value] = r at hmalloc ⊢
    obtain ⟨p, values⟩ := r
    obtain ⟨rfl, h1⟩ | ⟨a, rfl, h1⟩ := hmalloc
    · exact yields_ok h1
    · refine yields_bind fun old _ => yields_ite (fun _ => ?_) fun _ => ?_
      · exact (h1.insert name a).bind fun vars h2 => yields_ok h2
      · exact (h1.delete _).bind fun vars h2 => (h2.insert name a).bind fun vars' h3 => yields_ok h3

theorem Tallied.deletevar {parser : http_parser_t} (h : Tallied 0 parser.vars)
    (name : Option CString) :
    Yields (httpp_deletevar parser name) fun new => Tallied 0 new.vars := by
  cases name with
  | none => exact yields_ok h
  | some name => exact (h.delete _).bind fun vars h1 => yields_ok h1

/-! ## What a parser holds -/

/-- The tree stands for some values, and no more is allocated for it than that takes. -/
structure Neat (tree : var_tree) : Prop where
  held : Held tree
  tallied : Tallied 0 tree

theorem neat_kept : KeptBySetters Neat where
  params tree name value replace h tree' hrun :=
    ⟨set_param_held h.held name value replace tree' hrun,
      h.tallied.set_param name value replace tree' hrun⟩
  setvar parser name value h new hrun := by
    refine ⟨?_, h.tallied.setvar name value new hrun⟩
    obtain ⟨f, hf⟩ := h.held
    match name, value with
    | none, _ =>
      cases hrun
      exact h.held
    | some _, none =>
      cases hrun
      exact h.held
    | some name, some value =>
      obtain ⟨vars', hset, hmaps⟩ := setvar_spec hf name value
      cases hset.symm.trans hrun
      exact ⟨_, hmaps⟩
  deletevar parser name h new hrun := by
    refine ⟨?_, h.tallied.deletevar name new hrun⟩
    obtain ⟨f, hf⟩ := h.held
    cases name with
    | none =>
      cases hrun
      exact h.held
    | some name =>
      obtain ⟨vars', hdelete, hmaps⟩ := deletevar_spec hf name
      cases hdelete.symm.trans hrun
      exact ⟨_, hmaps⟩

theorem new_neat (pool : Pool) : ∃ tree, var_tree.new pool = .ok tree ∧ Neat tree := by
  obtain ⟨tree, hnew, hmaps⟩ := var_tree.new_spec pool
  refine ⟨tree, hnew, ⟨⟨_, hmaps⟩, ?_⟩⟩
  obtain ⟨S, hS, he⟩ := hmaps.entries
  have hnone : S = [] := by
    refine List.eq_nil_iff_forall_not_mem.mpr fun v hv => ?_
    exact (he.filled v.name).mpr ⟨v, hv, rfl⟩ rfl
  subst hnone
  unfold var_tree.new at hnew
  split at hnew
  · next avl havl =>
    cases hnew
    have hright := new_right havl
    exact ⟨[], hS, by simp, ⟨hright.keeps.kept, hright.keeps.closed, hright.keeps.size⟩,
      (encloses_refl _ _).grants _⟩
  · cases hnew

theorem Neat.variables {tree : var_tree} (h : Neat tree) :
    ∃ S f, Lists tree.avl S ∧ Entries tree.values S f ∧ Keeps nothing (S.length + 1) tree.avl.mem ∧
      Cells S.length tree.values := by
  obtain ⟨f, hf⟩ := h.held
  obtain ⟨S, hS, he⟩ := hf.entries
  obtain ⟨S', hS', -, hnodes, hvalues⟩ := h.tallied
  obtain ⟨root, t, hroot, hheld, hkeys⟩ := hS.reads
  have hsame : S' = S := by
    have heq := (hS'.reads.unique hroot hheld).trans hkeys
    exact List.map_injective_iff.mpr (Option.some_injective _) heq
  subst hsame
  exact ⟨S', f, hS, he, hnodes, hvalues⟩

/-! ## Freeing -/

/-- Nothing is left. -/
def Remains.Empty (r : Remains) : Prop := (∀ a, r.nodes.get a = none) ∧ ∀ a, r.values.get a = none

theorem no_others {α : Type} {links : α → List Ptr} {m : Memory α} {l : List Nat}
    (h : Encloses links nothing l.length m) (hl : l.Nodup) (hlive : ∀ a ∈ l, (m.get a).isSome)
    {a : Nat} (ha : a ∉ l) : m.get a = none := by
  rw [← Option.not_isSome_iff_eq_none, h.live hl hlive (fun _ _ => rfl)]
  rintro (hold | hmem)
  · cases hold
  · exact ha hmem

theorem free_values {S : List http_var_t} {values : Memory (List CString)}
    (h : Cells S.length values) (hcells : (S.map (·.value)).Nodup)
    (hstored : ∀ v ∈ S, ∃ a, v.value = some a ∧ (values.get a).isSome) :
    Succeeds ((S.map some).foldlM _free_vars values) (Cells 0) := by
  induction S generalizing values with
  | nil => exact succeeds_ok h
  | cons v S ih =>
    obtain ⟨a, ha, hlive⟩ := hstored v List.mem_cons_self
    obtain ⟨x, hx⟩ := Option.isSome_iff_exists.mp hlive
    obtain ⟨values', hfree, -, hsame, -⟩ := Memory.free_eq hx
    obtain ⟨k, hk, h'⟩ := h.free rfl values' hfree
    obtain ⟨hnot, hrest⟩ := List.nodup_cons.mp hcells
    rw [List.length_cons, Nat.add_right_cancel_iff] at hk
    have hrun : _free_vars values (some v) = .ok values' := by
      rw [_free_vars, ha, hfree]
    rw [List.map_cons, List.foldlM_cons, hrun]
    refine ih (hk ▸ h') hrest fun w hw => ?_
    obtain ⟨b, hb, hlive⟩ := hstored w (List.mem_cons_of_mem v hw)
    refine ⟨b, hb, ?_⟩
    rw [hsame b]
    · exact hlive
    · rintro rfl
      exact hnot (List.mem_map.mpr ⟨w, hw, hb.trans ha.symm⟩)

theorem Neat.free {tree : var_tree} (h : Neat tree) (hsize : tree.values.size < 2 ^ 32) :
    Succeeds tree.free Remains.Empty := by
  obtain ⟨S, f, hS, he, hnodes, hvalues⟩ := h.variables
  obtain ⟨t, hst, hkeys⟩ := hS.held
  have hlength : t.numNodes = S.length := by
    rw [← keys_length, hkeys, List.length_map]
  have hvaluesize : tree.values.size = S.length := hvalues.size.trans (Nat.zero_add _)
  obtain ⟨root, hroot, hheld⟩ := hst.held
  obtain ⟨nodes, root', hroot', hfree, hgone, hkept⟩ :=
    avl_tree_free_spec hst.stands (by omega) (some fun _ => 1)
  obtain ⟨values, hrun, hnone⟩ := free_values hvalues he.cells fun v hv => by
    obtain ⟨a, ha, hget⟩ := he.stored v hv
    exact ⟨a, ha, Option.isSome_of_eq_some hget⟩
  obtain rfl : root = root' := Option.some.inj (hroot.symm.trans hroot')
  have hhanded : handed (some fun _ : Option http_var_t => (1 : Int)) t = S.map some := hkeys
  refine ⟨{ nodes, values }, ?_, ?_, fun a =>
    no_others (l := []) hnone List.nodup_nil (by simp) List.not_mem_nil⟩
  · unfold var_tree.free
    rw [hfree, hhanded]
    simp only [ok_bind, hrun]
    rfl
  · intro a
    by_cases ha : a ∈ root :: addrs t
    · exact hgone a ha
    · have hcells : (root :: addrs t).length = S.length + 1 := by
        rw [List.length_cons, addrs, List.length_map, inorder_length, hlength]
      have hdistinct := hheld.distinct
      rw [plug_nil] at hdistinct
      exact (hkept a ha).trans (no_others (hcells ▸ hnodes) hdistinct hheld.live ha)

theorem clear_spec {parser : http_parser_t} (h : Each Neat parser)
    (hsize : Each (fun tree => tree.values.size < 2 ^ 32) parser) :
    Succeeds (httpp_clear parser) fun remains => ∀ r ∈ remains, r.Empty := by
  obtain ⟨r1, hrun1, h1⟩ := h.vars.free hsize.vars
  obtain ⟨r2, hrun2, h2⟩ := h.queryvars.free hsize.queryvars
  obtain ⟨r3, hrun3, h3⟩ := h.postvars.free hsize.postvars
  refine ⟨[r1, r2, r3], ?_, ?_⟩
  · simp only [httpp_clear, List.mapM_cons, List.mapM_nil, hrun1, hrun2, hrun3, ok_bind, pure_eq_ok]
  · simp only [List.forall_mem_cons, List.not_mem_nil, false_imp_iff, implies_true, and_true]
    exact ⟨h1, h2, h3⟩

/-! ## Runs -/

/-- A call of somebody who has a reference. -/
inductive ParserUse where
  | call (c : ParserCall)
  | set_defaults (defaults : http_varlist_t)
  | parse_response (http_data : Option Bytes) (len : Nat) (uri : Option CString)
  | addref
  | release

/-- Once the parser is gone, a call is an access to freed memory. -/
def parser_use : parser_ref ⊕ List Remains → ParserUse → C (parser_ref ⊕ List Remains)
  | .inr _, _ => throw .dangling
  | .inl self, .call c => return .inl { self with parser := ← parser_call self.parser c }
  | .inl self, .set_defaults defaults =>
    return .inl { self with parser := ← httpp_initialize self.parser defaults }
  | .inl self, .parse_response http_data len uri =>
    return .inl { self with parser := (← httpp_parse_response self.parser http_data len uri).2 }
  | .inl self, .addref => return .inl (httpp_addref self).2
  | .inl self, .release => return (← httpp_release self).2

/-- The references behind a call. -/
def ParserUse.references (n : Nat) : ParserUse → Nat
  | .addref => n + 1
  | .release => n - 1
  | _ => n

/-- The references behind a run. The one who makes the parser has one. -/
def references (uses : List ParserUse) : Nat := uses.foldl ParserUse.references 1

theorem references_snoc (pre : List ParserUse) (use : ParserUse) :
    references (pre ++ [use]) = use.references (references pre) := by
  rw [references, List.foldl_append]
  rfl

theorem references_le (uses : List ParserUse) : references uses ≤ uses.length + 1 := by
  induction uses using List.reverseRecOn with
  | nil => exact Nat.le_refl 1
  | append_singleton uses use ih =>
    rw [references_snoc, List.length_append, List.length_singleton]
    cases use <;> simp only [ParserUse.references] <;> omega

/-- The counter is the number of references, and when there are none nothing is left. -/
def Counted (n : Nat) : parser_ref ⊕ List Remains → Prop
  | .inl self => 0 < n ∧ self.refc = BitVec.ofNat 64 n ∧ Each Neat self.parser
  | .inr remains => n = 0 ∧ ∀ r ∈ remains, r.Empty

theorem call_kept {parser : http_parser_t} (h : Each Neat parser) (c : ParserCall) :
    Yields (parser_call parser c) (Each Neat) := by
  cases c with
  | parse http_data len => exact (neat_kept.parse h http_data len).bind fun r h' => yields_ok h'
  | parse_postdata body_data len =>
    exact (neat_kept.parse_postdata h body_data len).bind fun r h' => yields_ok h'
  | setvar name value => exact neat_kept.set h name value
  | deletevar name => exact neat_kept.delete h name
  | set_query_param name value =>
    exact (neat_kept.params.set_param h.queryvars name value).bind fun tree h' =>
      yields_ok ⟨h.vars, h', h.postvars⟩
  | set_post_param name value =>
    exact (neat_kept.params.set_param h.postvars name value).bind fun tree h' =>
      yields_ok ⟨h.vars, h.queryvars, h'⟩

/-- The last release gives everything back, and no other does anything but count. -/
theorem release_spec {self : parser_ref} {n : Nat} (h : Counted n (.inl self)) (hn : n < 2 ^ 64)
    (hsize : Each (fun tree => tree.values.size < 2 ^ 32) self.parser) :
    Succeeds (httpp_release self) fun r => r.1 = 0 ∧ Counted (n - 1) r.2 := by
  obtain ⟨hpos, hrefc, hneat⟩ := h
  have hsub : self.refc - 1 = BitVec.ofNat 64 (n - 1) := by
    rw [hrefc, ← BitVec.ofNat_sub_ofNat_of_le _ _ (by decide) hpos]
    rfl
  unfold httpp_release
  dsimp only
  by_cases hlast : n = 1
  · subst hlast
    obtain ⟨remains, hclear, hempty⟩ := clear_spec hneat hsize
    have hlast : ¬ self.refc - 1 ≠ 0 := not_not.mpr hsub
    rw [if_neg hlast]
    simp only [hclear, ok_bind, pure_eq_ok]
    exact succeeds_ok ⟨rfl, rfl, hempty⟩
  · have hzero : self.refc - 1 ≠ 0 := by
      rw [hsub, ne_eq, ← BitVec.toNat_inj, BitVec.toNat_ofNat]
      have hmod := Nat.mod_eq_of_lt (a := n - 1) (b := 2 ^ 64) (by omega)
      simp
      omega
    rw [if_pos hzero]
    exact succeeds_ok ⟨rfl, by omega, hsub, hneat⟩

theorem use_counted {state : parser_ref ⊕ List Remains} {n : Nat} (h : Counted n state)
    (use : ParserUse) (hn : n < 2 ^ 64)
    (hsize : use = .release → ∀ self, state = .inl self →
      Each (fun tree => tree.values.size < 2 ^ 32) self.parser) :
    Yields (parser_use state use) (Counted (use.references n)) := by
  cases state with
  | inr remains => exact yields_error _
  | inl self =>
    cases use with
    | call c => exact (call_kept h.2.2 c).bind fun parser h' => yields_ok ⟨h.1, h.2.1, h'⟩
    | set_defaults defaults =>
      exact (neat_kept.set_defaults h.2.2 defaults).bind fun parser h' =>
        yields_ok ⟨h.1, h.2.1, h'⟩
    | parse_response http_data len uri =>
      exact (neat_kept.parse_response h.2.2 http_data len uri).bind fun r h' =>
        yields_ok ⟨h.1, h.2.1, h'⟩
    | addref =>
      refine yields_ok ⟨Nat.succ_pos n, ?_, h.2.2⟩
      show self.refc + 1 = BitVec.ofNat 64 (n + 1)
      rw [h.2.1, BitVec.ofNat_add]
      rfl
    | release =>
      obtain ⟨r, hrun, -, h'⟩ := release_spec h hn (hsize rfl self rfl)
      simp only [parser_use, hrun, ok_bind, pure_eq_ok]
      exact yields_ok h'

/-! Only the parsing functions may have a fault. -/

def ParserUse.Parses : ParserUse → Prop
  | .call (.parse ..) => True
  | .call (.parse_postdata ..) => True
  | .parse_response .. => True
  | _ => False

theorem set_succeeds {parser : http_parser_t} (h : Each Neat parser) (name value : Option CString) :
    ∃ new, httpp_setvar parser name value = .ok new ∧ Each Neat new := by
  obtain ⟨f, hf⟩ := h.vars.held
  have hset : ∃ new, httpp_setvar parser name value = .ok new := by
    match name, value with
    | none, _ => exact ⟨parser, rfl⟩
    | some _, none => exact ⟨parser, rfl⟩
    | some name, some value =>
      obtain ⟨vars', hrun, -⟩ := setvar_spec hf name value
      exact ⟨_, hrun⟩
  obtain ⟨new, hrun⟩ := hset
  exact ⟨new, hrun, neat_kept.set h name value new hrun⟩

theorem defaults_succeed {parser : http_parser_t} (h : Each Neat parser)
    (defaults : http_varlist_t) :
    ∃ new, httpp_initialize parser defaults = .ok new := by
  have hvalues (parser : http_parser_t) (h : Each Neat parser)
    (var : Option CString × List (Option CString)) :
      ∃ new, var.2.foldlM (fun parser value => httpp_setvar parser var.1 value) parser = .ok new ∧
        Each Neat new :=
    run_invariant (fun _ value h => set_succeeds h var.1 value) h var.2
  have hvars : ∃ new, httpp_initialize parser defaults = .ok new ∧ Each Neat new :=
    run_invariant (fun parser var h => hvalues parser h var) h defaults
  obtain ⟨new, hrun, -⟩ := hvars
  exact ⟨new, hrun⟩

theorem set_param_succeeds {tree : var_tree} (h : Neat tree) (name value : Option CString) :
    ∃ tree', _httpp_set_param tree name value = .ok tree' := by
  obtain ⟨f, hf⟩ := h.held
  match name, value with
  | none, _ => exact ⟨tree, rfl⟩
  | some _, none => exact ⟨tree, rfl⟩
  | some name, some value =>
    obtain ⟨tree', hrun, -⟩ := hf.sets name value
    exact ⟨tree', hrun⟩

theorem use_succeeds {self : parser_ref} {n : Nat} (h : Counted n (.inl self)) (hn : n < 2 ^ 64)
    {use : ParserUse} (huse : ¬ use.Parses)
    (hsize : Each (fun tree => tree.values.size < 2 ^ 32) self.parser) :
    ∃ state, parser_use (.inl self) use = .ok state := by
  cases use with
  | call c =>
    have hcall : ∃ parser, parser_call self.parser c = .ok parser := by
      cases c with
      | parse http_data len => exact absurd trivial huse
      | parse_postdata body_data len => exact absurd trivial huse
      | setvar name value =>
        obtain ⟨new, hrun, -⟩ := set_succeeds h.2.2 name value
        exact ⟨new, hrun⟩
      | deletevar name =>
        cases name with
        | none => exact ⟨self.parser, rfl⟩
        | some name =>
          obtain ⟨f, hf⟩ := h.2.2.vars.held
          obtain ⟨vars', hrun, -⟩ := deletevar_spec hf name
          exact ⟨_, hrun⟩
      | set_query_param name value =>
        obtain ⟨tree, hrun⟩ := set_param_succeeds h.2.2.queryvars name value
        exact ⟨_, run_bind hrun rfl⟩
      | set_post_param name value =>
        obtain ⟨tree, hrun⟩ := set_param_succeeds h.2.2.postvars name value
        exact ⟨_, run_bind hrun rfl⟩
    obtain ⟨parser, hrun⟩ := hcall
    exact ⟨_, run_bind hrun rfl⟩
  | set_defaults defaults =>
    obtain ⟨new, hrun⟩ := defaults_succeed h.2.2 defaults
    exact ⟨_, run_bind hrun rfl⟩
  | parse_response http_data len uri => exact absurd trivial huse
  | addref => exact ⟨_, rfl⟩
  | release =>
    obtain ⟨r, hrun, -⟩ := release_spec h hn hsize
    exact ⟨_, run_bind hrun rfl⟩

/-- The variables of the tree, each with a name, a node and a cell of its own, and no other node or
cell. -/
def Exact (tree : var_tree) : Prop :=
  ∃ S : List http_var_t, Reads tree.avl (S.map some) ∧ (S.map (·.name)).Nodup ∧
    (S.map (·.value)).Nodup ∧
    tree.avl.mem.size = S.length + 1 ∧ ∀ a, (tree.values.get a).isSome ↔ some a ∈ S.map (·.value)

theorem Neat.exact {tree : var_tree} (h : Neat tree) : Exact tree := by
  obtain ⟨S, f, hS, he, hnodes, hvalues⟩ := h.variables
  obtain ⟨l, hl⟩ : ∃ l : List Nat, l.map some = S.map (·.value) := by
    refine ⟨S.map fun v => v.value.getD 0, ?_⟩
    rw [List.map_map]
    refine List.map_congr_left fun v hv => ?_
    obtain ⟨a, ha, -⟩ := he.stored v hv
    rw [Function.comp_apply, ha, Option.getD_some]
  have hlength : l.length = S.length := by
    rw [← List.length_map some, hl, List.length_map]
  have hcells := he.cells
  have hlive : ∀ a ∈ l, (tree.values.get a).isSome := by
    intro a ha
    obtain ⟨v, hv, hva⟩ := List.mem_map.mp (hl ▸ List.mem_map_of_mem ha)
    obtain ⟨b, hb, hget⟩ := he.stored v hv
    cases hva.symm.trans hb
    exact Option.isSome_of_eq_some hget
  rw [← hl] at hcells
  refine ⟨S, hS.reads, he.names, he.cells, hnodes.size.trans (Nat.zero_add _), fun a => ?_⟩
  rw [(hlength ▸ hvalues : Cells l.length _).live (List.Nodup.of_map some hcells) hlive
    (fun _ _ => rfl), ← hl, List.mem_map_of_injective (Option.some_injective _)]
  exact or_iff_right Bool.false_ne_true

def run_uses (vars queryvars postvars : Pool) (uses : List ParserUse) :
    C (parser_ref ⊕ List Remains) := do
  uses.foldlM parser_use (.inl (← httpp_create_counted vars queryvars postvars))

/-- **Lifetime.** In every run, a parser that is still there has as many references as its counter
says, and exactly its variables are allocated; only the parsing functions may have a fault then.
With the last reference it goes, and nothing is left. -/
theorem parser_lifetime (vars queryvars postvars : Pool) (uses : List ParserUse)
    (hcount : uses.length + 1 < 2 ^ 64)
    (hsize : ∀ pre post self, uses = pre ++ post →
      run_uses vars queryvars postvars pre = .ok (.inl self) →
      Each (fun tree => tree.values.size < 2 ^ 32) self.parser)
    {state : parser_ref ⊕ List Remains} (hrun : run_uses vars queryvars postvars uses = .ok state) :
    (∃ self, state = .inl self ∧ 0 < references uses ∧ self.refc.toNat = references uses ∧
      Each Exact self.parser ∧
      ∀ use : ParserUse, ¬ use.Parses → ∃ state', parser_use (.inl self) use = .ok state') ∨
    ∃ remains, state = .inr remains ∧ references uses = 0 ∧ ∀ r ∈ remains, r.Empty := by
  have hcreate : ∃ self0, httpp_create_counted vars queryvars postvars = .ok self0 ∧
      Counted 1 (.inl self0) := by
    obtain ⟨t1, h1, hn1⟩ := new_neat vars
    obtain ⟨t2, h2, hn2⟩ := new_neat queryvars
    obtain ⟨t3, h3, hn3⟩ := new_neat postvars
    refine ⟨⟨1, ⟨.httpp_req_none, none, t1, t2, t3⟩⟩, ?_, Nat.one_pos, rfl, hn1, hn2, hn3⟩
    unfold httpp_create_counted httpp_create
    rw [h1, h2, h3]
    rfl
  obtain ⟨self0, hnew, h0⟩ := hcreate
  have hstart (pre : List ParserUse) :
      run_uses vars queryvars postvars pre = pre.foldlM parser_use (.inl self0) := by
    rw [run_uses, hnew, ok_bind]
  have hlt {pre post : List ParserUse} (hpre : uses = pre ++ post) : references pre < 2 ^ 64 := by
    have hle := references_le pre
    have hlength := congrArg List.length hpre
    rw [List.length_append] at hlength
    omega
  have hcounted : ∀ pre post, uses = pre ++ post →
      Yields (run_uses vars queryvars postvars pre) (Counted (references pre)) := by
    intro pre
    induction pre using List.reverseRecOn with
    | nil =>
      intro post _
      rw [hstart]
      exact yields_ok h0
    | append_singleton pre use ih =>
      intro post hpre
      rw [List.append_assoc] at hpre
      have hih := ih _ hpre
      rw [hstart, List.foldlM_append, ← hstart, references_snoc]
      refine yields_bind fun state1 hstate1 => ?_
      rw [List.foldlM_cons]
      simp only [List.foldlM_nil, bind_pure]
      refine use_counted (hih state1 hstate1) use (hlt hpre) fun _ self hself => ?_
      exact hsize pre _ self hpre (hself ▸ hstate1)
  have hnil : uses = uses ++ [] := (List.append_nil uses).symm
  have h := hcounted uses [] hnil state hrun
  cases state with
  | inr remains => exact .inr ⟨remains, rfl, h.1, h.2⟩
  | inl self =>
    refine .inl
      ⟨self, rfl, h.1, ?_, ⟨h.2.2.vars.exact, h.2.2.queryvars.exact, h.2.2.postvars.exact⟩,
      fun use huse => ?_⟩
    · rw [h.2.1, BitVec.toNat_ofNat, Nat.mod_eq_of_lt (hlt hnil)]
    · exact use_succeeds h (hlt hnil) huse (hsize uses [] self hnil hrun)

/-- One holder sets a variable, another one takes a reference and gives it back, and the first lets
the parser go. -/
def two_holders : List ParserUse :=
  [.addref, .call (.setvar (some HTTPP_VAR_URI) (some HTTPP_VAR_VERSION)), .release,
    .call (.deletevar (some HTTPP_VAR_URI)), .release]

def small : C (parser_ref ⊕ List Remains) → Bool
  | .ok (.inl self) =>
    decide (self.parser.vars.values.size < 2 ^ 32 ∧ self.parser.queryvars.values.size < 2 ^ 32 ∧
      self.parser.postvars.values.size < 2 ^ 32)
  | _ => true

theorem two_holders_small :
    ∀ pre ∈ two_holders.inits, small (run_uses ⟨id, id⟩ ⟨id, id⟩ ⟨id, id⟩ pre) := by
  decide

theorem parser_lifetime_two : ∃ state, run_uses ⟨id, id⟩ ⟨id, id⟩ ⟨id, id⟩ two_holders = .ok state ∧
    ((∃ self, state = .inl self ∧ 0 < references two_holders ∧
      self.refc.toNat = references two_holders ∧
      Each Exact self.parser ∧ ∀ use : ParserUse, ¬ use.Parses →
      ∃ state', parser_use (.inl self) use = .ok state') ∨
    ∃ remains, state = .inr remains ∧ references two_holders = 0 ∧ ∀ r ∈ remains, r.Empty) := by
  refine ⟨_, rfl,
    parser_lifetime ⟨id, id⟩ ⟨id, id⟩ ⟨id, id⟩ two_holders (by decide)
      (fun pre post self hpre hrun => ?_) rfl⟩
  have hsmall := two_holders_small pre ((List.mem_inits pre two_holders).mpr ⟨post, hpre.symm⟩)
  rw [hrun] at hsmall
  obtain ⟨h1, h2, h3⟩ := of_decide_eq_true hsmall
  exact ⟨h1, h2, h3⟩

end Httpp
