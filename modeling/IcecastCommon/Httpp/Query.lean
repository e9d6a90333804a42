import IcecastCommon.Httpp.Vars
import Mathlib.Data.List.DropRight

/-!
# Query strings

The text between two `&` is an element. What a query adds to a tree of variables is one value for
each element that has a key and a value that can be decoded.
-/

namespace Httpp

open Lib Avl

/-! ## Decoding -/

/-- What `url_unescape` stores in front of the NUL. -/
def unescape : Bytes → Option Bytes
  | [] => some []
  | c :: rest =>
    if c = ch '%' then
      match rest with
      | hi :: lo :: rest =>
        if hex hi = -1 ∨ hex lo = -1 then none
        else (unescape rest).map (UInt8.ofNat (hex hi * 16 + hex lo).toNat :: ·)
      | _ => none
    else if c = ch '+' then (unescape rest).map (ch ' ' :: ·)
    else if c = ch '#' then some []
    else if c = 0 then none
    else (unescape rest).map (c :: ·)

theorem unescape_loop_spec {block rest : Bytes} {src len i : Nat} {text dst : Bytes} {fuel : Nat}
    (h : block.drop (src + i) = text ++ rest) (hlen : i + text.length = len)
    (hfuel : text.length ≤ fuel) :
    unescape_loop block src len fuel i dst = .ok ((unescape text).map (dst ++ ·)) := by
  induction fuel generalizing text i dst with
  | zero =>
    obtain rfl : text = [] := List.length_eq_zero_iff.mp (by omega)
    simp [unescape_loop, unescape]
  | succ fuel ih =>
    cases text with
    | nil =>
      have hi : ¬ i < len := by
        rw [List.length_nil] at hlen
        omega
      unfold unescape_loop
      rw [if_neg hi]
      simp [unescape]
    | cons c text =>
      rw [List.length_cons] at hlen hfuel
      have hi : i < len := by omega
      have hread : read block (src + i) = .ok c := read_drop h
      have hnext : block.drop (src + (i + 1)) = text ++ rest := drop_next h
      unfold unescape_loop unescape
      rw [if_pos hi, hread, ok_bind]
      by_cases hpercent : c = ch '%'
      · rw [if_pos hpercent, if_pos hpercent]
        match text with
        | [] =>
          rw [if_pos (by simp at hlen; omega)]
          rfl
        | [_] =>
          rw [if_pos (by simp at hlen; omega)]
          rfl
        | hi :: lo :: text =>
          simp only [List.length_cons] at hlen hfuel
          have hnext2 : block.drop (src + (i + 2)) = lo :: text ++ rest := drop_next hnext
          have hnext3 : block.drop (src + (i + 3)) = text ++ rest := drop_next hnext2
          rw [if_neg (by omega), read_drop hnext, ok_bind, read_drop hnext2, ok_bind]
          simp only
          split_ifs with hdigits
          · rfl
          · rw [ih hnext3 (by omega) (by omega)]
            simp [Function.comp_def]
      · rw [if_neg hpercent, if_neg hpercent]
        have hstep (b : Byte) : unescape_loop block src len fuel (i + 1) (dst ++ [b]) =
            .ok (((unescape text).map (b :: ·)).map (dst ++ ·)) := by
          rw [ih hnext (by omega) (by omega)]
          simp [Function.comp_def]
        split_ifs
        · exact hstep _
        · simp
        · rfl
        · exact hstep _

theorem url_unescape_spec {block rest : Bytes} {src : Nat} {text : Bytes}
    (h : block.drop src = text ++ rest) :
    url_unescape block src text.length = .ok ((unescape text).map (· ++ [0])) := by
  unfold url_unescape
  rw [unescape_loop_spec (i := 0) h (Nat.zero_add _) (Nat.le_refl _)]
  simp

/-! ## One element -/

/-- The key and the value of an element. Its last `=` is in between. -/
def element (e : Bytes) : Option (CString × CString) :=
  let key := (e.rdropWhile (· != ch '=')).dropLast
  let text := e.rtakeWhile (· != ch '=')
  if ch '=' ∉ e ∨ key = [] ∨ text = [] then none
  else (unescape text).map fun value => (CString.cut key, CString.cut value)

/-- What an element adds to a tree. -/
def store_element (tree : var_tree) (e : Bytes) : C var_tree :=
  match element e with
  | some (key, value) => _httpp_set_param_nocopy tree (some key) (some value) false
  | none => return tree

theorem last_equals {text : Bytes} (htext : ch '=' ∉ text) (key : Bytes) :
    ((key ++ ch '=' :: text).rdropWhile (· != ch '=')).dropLast = key ∧
      (key ++ ch '=' :: text).rtakeWhile (· != ch '=') = text := by
  have hall : ∀ b ∈ text.reverse, (b != ch '=') = true :=
    fun b hb => all_ne htext b (List.mem_reverse.mp hb)
  have hreverse : (key ++ ch '=' :: text).reverse = text.reverse ++ ch '=' :: key.reverse := by simp
  unfold List.rdropWhile List.rtakeWhile
  rw [hreverse, List.dropWhile_append_of_pos hall, List.dropWhile_cons_of_neg (by simp),
    List.takeWhile_append_of_pos hall, List.takeWhile_cons_of_neg (by simp)]
  constructor
  · simp
  · simp

theorem element_append {key text : Bytes} (htext : ch '=' ∉ text) :
    element (key ++ ch '=' :: text) =
      if key = [] ∨ text = [] then none
      else (unescape text).map fun value => (CString.cut key, CString.cut value) := by
  obtain ⟨hkey, hvalue⟩ := last_equals htext key
  unfold element
  simp only [hkey, hvalue]
  simp

theorem element_of_not_mem {e : Bytes} (h : ch '=' ∉ e) : element e = none := by
  unfold element
  simp [h]

/-- `mid` points to the last `=` of the element that starts behind `pre`. -/
def Mid (pre : Nat) (e : Bytes) : Option Nat → Prop
  | none => ch '=' ∉ e
  | some mid => ∃ key text, e = key ++ ch '=' :: text ∧ ch '=' ∉ text ∧ mid = pre + key.length

theorem parse_query_element_spec {pre e : Bytes} {mid : Option Nat} (rest : Bytes) (tree : var_tree)
    (hmid : Mid pre.length e mid) :
    parse_query_element tree (pre ++ (e ++ rest)) pre.length mid (pre.length + e.length) =
      store_element tree e := by
  unfold parse_query_element store_element
  cases mid with
  | none =>
    rw [element_of_not_mem hmid]
    split_ifs <;> rfl
  | some mid =>
    obtain ⟨key, text, rfl, htext, rfl⟩ := hmid
    rw [element_append htext]
    have hstart : ¬ pre.length ≥ pre.length + (key ++ ch '=' :: text).length := by
      rw [List.length_append, List.length_cons]
      omega
    have hkeylen : size_sub (pre.length + key.length) pre.length = key.length := by
      rw [size_sub_of_le (by omega)]
      omega
    have hvaluelen :
        size_sub (size_sub (pre.length + (key ++ ch '=' :: text).length)
          (pre.length + key.length)) 1 = text.length := by
      have hdiff :
        size_sub (pre.length + (key ++ ch '=' :: text).length) (pre.length + key.length) =
          text.length + 1 := by
        rw [List.length_append, List.length_cons, size_sub_of_le (by omega)]
        omega
      rw [hdiff, size_sub_of_le (Nat.le_add_left 1 _)]
      rfl
    have hkey : slice (pre ++ (key ++ ch '=' :: text ++ rest)) pre.length key.length = .ok key := by
      have hdrop : (pre ++ (key ++ ch '=' :: text ++ rest)).drop pre.length =
          key ++ (ch '=' :: text ++ rest) := by
        rw [List.drop_left, List.append_assoc]
      exact slice_drop (by simp) hdrop
    have hvalue :
        url_unescape (pre ++ (key ++ ch '=' :: text ++ rest)) (pre.length + key.length + 1)
          text.length = .ok ((unescape text).map (· ++ [0])) := by
      have hsplit :
          pre ++ (key ++ ch '=' :: text ++ rest) = (pre ++ key ++ [ch '=']) ++ (text ++ rest) := by
        simp
      have hlen : pre.length + key.length + 1 = (pre ++ key ++ [ch '=']).length := by
        simp [Nat.add_assoc]
      have hdrop : (pre ++ (key ++ ch '=' :: text ++ rest)).drop (pre.length + key.length + 1) =
          text ++ rest := by
        rw [hsplit, hlen, List.drop_left]
      exact url_unescape_spec hdrop
    simp only [hstart, if_false, hkeylen, hvaluelen, List.length_eq_zero_iff]
    split_ifs with hnil
    · rfl
    · simp only [hkey, hvalue, ok_bind, string_at_cut]
      cases unescape text with
      | none => rfl
      | some value =>
        simp only [Option.map_some, Option.mapM_some, string_at_cut]
        rfl

/-! ## The whole query -/

/-- The text between two `&`. -/
def elements (q : Bytes) : List Bytes := q.splitOn (ch '&')

theorem modifyHead_nil (l : List Bytes) : l.modifyHead ([] ++ ·) = l := by cases l <;> rfl

theorem Mid.snoc {pre : Nat} {e : Bytes} {mid : Option Nat} {c : Byte} (h : Mid pre e mid)
    (hc : c ≠ ch '=') :
    Mid pre (e ++ [c]) mid := by
  cases mid with
  | none =>
    intro hmem
    rw [List.mem_append, List.mem_singleton] at hmem
    rcases hmem with hmem | hmem
    · exact h hmem
    · exact hc hmem.symm
  | some mid =>
    obtain ⟨key, text, rfl, htext, hmid⟩ := h
    refine ⟨key, text ++ [c], by simp, ?_, hmid⟩
    intro hmem
    rw [List.mem_append, List.mem_singleton] at hmem
    rcases hmem with hmem | hmem
    · exact htext hmem
    · exact hc hmem.symm

theorem elements_amp (todo : Bytes) : elements (ch '&' :: todo) = [] :: elements todo := by
  rw [elements, List.splitOn_cons_eq_if_modifyHead, if_pos (by simp)]
  rfl

theorem elements_onward {c : Byte} (hamp : c ≠ ch '&') {e todo : Bytes} :
    (elements (c :: todo)).modifyHead (e ++ ·) =
      (elements todo).modifyHead (e ++ [c] ++ ·) := by
  rw [elements, List.splitOn_cons_eq_if_modifyHead, if_neg (by simpa using hamp),
    List.modifyHead_modifyHead]
  simp [elements, Function.comp_def]

/-- Behind `pre` stands the part `e` of an element, then the text to go. -/
theorem parse_query_loop_spec (todo pre e rest : Bytes) (tree : var_tree) (mid : Option Nat)
    (hmid : Mid pre.length e mid) :
    (do
      let x ← parse_query_loop (pre ++ (e ++ (todo ++ rest))) todo.length (pre.length + e.length)
        tree pre.length mid
      parse_query_element x.1 (pre ++ (e ++ (todo ++ rest))) x.2.1 x.2.2
        (pre.length + e.length + todo.length)) =
      ((elements todo).modifyHead (e ++ ·)).foldlM store_element tree := by
  induction todo generalizing pre e tree mid with
  | nil =>
    have hone := parse_query_element_spec rest tree hmid
    simp only [elements, List.splitOn_nil, List.length_nil, parse_query_loop, pure_eq_ok, ok_bind,
      List.nil_append, Nat.add_zero, hone, List.modifyHead_cons, List.append_nil, List.foldlM_cons,
      List.foldlM_nil]
    cases store_element tree e <;> rfl
  | cons c todo ih =>
    have hread : read (pre ++ (e ++ (c :: todo ++ rest))) (pre.length + e.length) = .ok c := by
      rw [← List.length_append, ← List.append_assoc]
      exact read_middle (pre ++ e) (todo ++ rest) c
    simp only [List.length_cons, parse_query_loop, hread, ok_bind]
    by_cases hamp : c = ch '&'
    · have hone := parse_query_element_spec (c :: todo ++ rest) tree hmid
      have hnew :
          pre ++ (e ++ (c :: todo ++ rest)) = pre ++ e ++ [c] ++ ([] ++ (todo ++ rest)) := by
        simp
      have hstart : pre.length + e.length + 1 = (pre ++ e ++ [c]).length := by
        simp
        omega
      have hend :
          pre.length + e.length + (todo.length + 1) = (pre ++ e ++ [c]).length + todo.length := by
        simp
        omega
      rw [if_pos hamp, hone, bind_assoc, hamp, elements_amp, List.modifyHead_cons,
        List.append_nil, List.foldlM_cons, ← hamp]
      refine bind_congr fun tree1 => ?_
      rw [hnew, hstart, hend]
      have hrest := ih (pre ++ e ++ [c]) [] tree1 none List.not_mem_nil
      rw [modifyHead_nil] at hrest
      exact hrest
    · have hnext : pre ++ (e ++ (c :: todo ++ rest)) = pre ++ (e ++ [c] ++ (todo ++ rest)) := by
        simp
      have hi : pre.length + e.length + 1 = pre.length + (e ++ [c]).length := by
        simp
        omega
      have hend :
          pre.length + e.length + (todo.length + 1) =
          pre.length + (e ++ [c]).length + todo.length := by
        simp
        omega
      rw [if_neg hamp, elements_onward hamp]
      by_cases hequals : c = ch '='
      · have hmid' : Mid pre.length (e ++ [c]) (some (pre.length + e.length)) :=
          ⟨e, [], by rw [hequals], List.not_mem_nil, rfl⟩
        rw [if_pos hequals, hnext, hi, hend]
        exact ih pre (e ++ [c]) tree _ hmid'
      · rw [if_neg hequals, hnext, hi, hend]
        exact ih pre (e ++ [c]) tree mid (hmid.snoc hequals)

/-- **Queries.** Every element is stored, in order. -/
theorem parse_query_spec (tree : var_tree) (q : CString) (rest : Bytes) :
    parse_query tree (some (q.bytes ++ 0 :: rest)) q.bytes.length =
      (elements q.bytes).foldlM store_element tree := by
  have hloop := parse_query_loop_spec q.bytes [] [] (0 :: rest) tree none List.not_mem_nil
  rw [modifyHead_nil] at hloop
  simp only [List.length_nil, Nat.zero_add, List.nil_append] at hloop
  unfold parse_query
  by_cases hnil : q.bytes = []
  · rw [hnil]
    rfl
  · obtain ⟨c, q', hq⟩ := List.exists_cons_of_ne_nil hnil
    have hread : read (q.bytes ++ 0 :: rest) 0 = .ok c := by rw [hq]; rfl
    have hc : c ≠ 0 := by
      rintro rfl
      exact q.nulFree (hq ▸ List.mem_cons_self)
    simp only [hread, ok_bind, if_neg hc]
    exact hloop

/-! ## Values by key -/

/-- The values that the elements have for a key. -/
def values_of (es : List Bytes) (key : CString) : List CString :=
  es.filterMap fun e => (element e).bind fun x => if x.1 = key then some x.2 else none

theorem Maps.store_element {tree : var_tree} {f : CString → List CString} (h : Maps tree f)
    (e : Bytes) :
    ∃ tree', store_element tree e = .ok tree' ∧ Maps tree' fun key =>
      f key ++ values_of [e] key := by
  unfold Httpp.store_element
  cases he : element e with
  | none =>
    refine ⟨tree, rfl, ?_⟩
    simp only [values_of, List.filterMap_cons, he, Option.bind_none, List.filterMap_nil,
      List.append_nil]
    exact h
  | some x =>
    obtain ⟨tree', hrun, hmaps⟩ := set_param_spec h x.1 x.2
    refine ⟨tree', hrun, ?_⟩
    have heq :
        (fun key => f key ++ values_of [e] key) = Function.update f x.1 (f x.1 ++ [x.2]) := by
      funext key
      simp only [values_of, List.filterMap_cons, he, Option.bind_some, List.filterMap_nil]
      by_cases hkey : x.1 = key
      · subst hkey
        simp
      · have hkey' : key ≠ x.1 := fun heq => hkey heq.symm
        simp [hkey, hkey']
    rw [heq]
    exact hmaps

theorem Maps.store_elements {tree : var_tree} {f : CString → List CString} (h : Maps tree f)
    (es : List Bytes) :
    ∃ tree', es.foldlM Httpp.store_element tree = .ok tree' ∧ Maps tree' fun key =>
      f key ++ values_of es key := by
  induction es generalizing tree f with
  | nil =>
    refine ⟨tree, rfl, ?_⟩
    simp only [values_of, List.filterMap_nil, List.append_nil]
    exact h
  | cons e es ih =>
    obtain ⟨tree1, hstore, h1⟩ := h.store_element e
    obtain ⟨tree', hrun, h'⟩ := ih h1
    refine ⟨tree', ?_, ?_⟩
    · rw [List.foldlM_cons, hstore, ok_bind, hrun]
    · have heq : (fun key => f key ++ values_of (e :: es) key) = fun key =>
          f key ++ values_of [e] key ++ values_of es key := by
        funext key
        rw [List.append_assoc]
        congr 1
        exact List.filterMap_append (l := [e])
      rw [heq]
      exact h'

/-- One entry for every key that has values. -/
def Multimap (tree : var_tree) (values : CString → List CString) : Prop :=
  ∃ S : List http_var_t, Reads tree.avl (S.map some) ∧ (S.map (·.name)).Nodup ∧
    (∀ v ∈ S, tree.values.load v.value = .ok (values v.name)) ∧ ∀ key, values key ≠ [] ↔
    ∃ v ∈ S, v.name = key

theorem Maps.multimap {tree : var_tree} {f : CString → List CString} (h : Maps tree f) :
    Multimap tree f := by
  obtain ⟨S, hS, he⟩ := h.entries
  refine ⟨S, hS.reads, he.names, ?_, he.filled⟩
  intro v hv
  obtain ⟨a, ha, hget⟩ := he.stored v hv
  rw [ha, Memory.load_eq hget]

/-! ## At most one `=` -/

/-- `url_unescape` of a text, as a string. -/
def unescaped (text : Bytes) : Option CString :=
  match url_unescape text 0 text.length with
  | .ok (some block) => some (CString.cut block)
  | _ => none

/-- The decoded texts behind the `=` of the elements with this key. -/
def query_values (q : Bytes) (key : CString) : List CString :=
  (elements q).filterMap fun e =>
    let text := (e.dropWhile (· != ch '=')).drop 1
    if ch '=' ∈ e ∧ e.takeWhile (· != ch '=') = key.bytes ∧ key.bytes ≠ [] ∧ text ≠ [] then
      unescaped text
    else
      none

theorem unescaped_eq (text : Bytes) : unescaped text = (unescape text).map CString.cut := by
  have hrun := url_unescape_spec (show text.drop 0 = text ++ [] by simp)
  unfold unescaped
  rw [hrun]
  cases unescape text with
  | none => rfl
  | some value =>
    simp only [Option.map_some]
    rw [CString.cut_nul]

theorem mem_of_mem_elements {q e : Bytes} (he : e ∈ elements q) {c : Byte}
    (hc : c ∈ e) : c ∈ q := by
  have hall : ∀ q e, e ∈ elements q → e ⊆ q := by
    intro q
    induction q with
    | nil =>
      intro e he
      rw [elements, List.splitOn_nil, List.mem_singleton] at he
      rw [he]
      exact List.nil_subset _
    | cons b q ih =>
      intro e he
      rw [elements, List.splitOn_cons_eq_if_modifyHead] at he
      obtain ⟨e0, es, hes⟩ := List.exists_cons_of_ne_nil (List.splitOn_ne_nil (ch '&') q)
      rw [elements, hes] at ih
      rw [hes] at he
      split_ifs at he
      · rcases List.mem_cons.mp he with rfl | he
        · exact List.nil_subset _
        · exact List.subset_cons_of_subset b (ih e he)
      · rcases List.mem_cons.mp he with rfl | he
        · exact List.cons_subset_cons b (ih e0 List.mem_cons_self)
        · exact List.subset_cons_of_subset b (ih e (List.mem_cons_of_mem e0 he))
  exact hall q e he hc

theorem element_eq {e : Bytes} (hone : e.count (ch '=') ≤ 1) (hnul : 0 ∉ e) (key : CString) :
    ((element e).bind fun x => if x.1 = key then some x.2 else none) =
      let text := (e.dropWhile (· != ch '=')).drop 1
      if ch '=' ∈ e ∧ e.takeWhile (· != ch '=') = key.bytes ∧ key.bytes ≠ [] ∧
        text ≠ [] then unescaped text else none := by
  by_cases hmem : ch '=' ∈ e
  · obtain ⟨k, text, rfl, hk⟩ := List.eq_append_cons_of_mem hmem
    have htext : ch '=' ∉ text := by
      rw [List.count_append, List.count_cons_self] at hone
      exact List.count_eq_zero.mp (by omega)
    have hall : ∀ b ∈ k, (b != ch '=') = true := by
      intro b hb
      rw [bne_iff_ne]
      rintro rfl
      exact hk hb
    have hkey : (k ++ ch '=' :: text).takeWhile (· != ch '=') = k := by
      rw [List.takeWhile_append_of_pos hall, List.takeWhile_cons_of_neg (by simp), List.append_nil]
    have hvalue : ((k ++ ch '=' :: text).dropWhile (· != ch '=')).drop 1 = text := by
      rw [List.dropWhile_append_of_pos hall, List.dropWhile_cons_of_neg (by simp)]
      rfl
    have hcut : ∀ key : CString, CString.cut k = key ↔ k = key.bytes := by
      intro key
      let name : CString := ⟨k, fun h0 => hnul (List.mem_append_left _ h0)⟩
      have hname : CString.cut k = name := name.cut_bytes
      rw [hname]
      constructor
      · rintro rfl
        rfl
      · intro h
        exact CString.ext h
    rw [element_append htext]
    simp only [hkey, hvalue, unescaped_eq, hmem, true_and]
    by_cases hnil : k = [] ∨ text = []
    · rw [if_pos hnil, if_neg]
      · rfl
      · rintro ⟨rfl, hne, hne'⟩
        exact hnil.elim hne hne'
    · rw [not_or] at hnil
      rw [if_neg (by simpa using hnil)]
      by_cases hk' : k = key.bytes
      · have hne : key.bytes ≠ [] := hk' ▸ hnil.1
        rw [if_pos ⟨hk', hne, hnil.2⟩]
        cases unescape text with
        | none => rfl
        | some value => simp [(hcut key).mpr hk']
      · rw [if_neg fun h => hk' h.1]
        cases unescape text with
        | none => rfl
        | some value => simp [hcut, hk']
  · rw [element_of_not_mem hmem]
    simp [hmem]

/-- **An ordered multimap.** What a query leaves in an empty tree. -/
theorem parse_query_multimap (pool : Pool) (q : CString)
    (hone : ∀ e ∈ elements q.bytes, e.count (ch '=') ≤ 1) :
    ∃ tree, (do parse_query (← var_tree.new pool) (some q.block) q.bytes.length) = .ok tree ∧
      Multimap tree (query_values q.bytes) := by
  obtain ⟨tree0, hnew, hempty⟩ := var_tree.new_spec pool
  obtain ⟨tree, hrun, hmaps⟩ := hempty.store_elements (elements q.bytes)
  refine ⟨tree, ?_, ?_⟩
  · rw [hnew, ok_bind]
    exact (parse_query_spec tree0 q []).trans hrun
  · have heq : (fun key => [] ++ values_of (elements q.bytes) key) = query_values q.bytes := by
      funext key
      rw [List.nil_append]
      apply List.filterMap_congr
      intro e he
      exact element_eq (hone e he) (fun h0 => q.nulFree (mem_of_mem_elements he h0)) key
    rw [heq] at hmaps
    exact hmaps.multimap

/-- Two values for one key, and elements that add nothing. -/
theorem parse_query_multimap_twice :
    let q : CString := ⟨ascii "a=1&b&a=%32+x&=3&c=", by decide⟩
    ∃ tree, (do parse_query (← var_tree.new ⟨id, id⟩) (some q.block) q.bytes.length) = .ok tree ∧
      Multimap tree (query_values q.bytes) :=
  parse_query_multimap ⟨id, id⟩ ⟨ascii "a=1&b&a=%32+x&=3&c=", by decide⟩ (by decide +kernel)

end Httpp
