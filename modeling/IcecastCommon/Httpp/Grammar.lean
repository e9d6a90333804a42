import IcecastCommon.Httpp.Names

/-!
# The request line

The form `METHOD URI PROTOCOL/VERSION`, with spaces in between and perhaps behind.
-/

namespace Httpp

open Lib httpp_request_type_e

/-! ## Spaces and words -/

def spaces (n : Nat) : Bytes := List.replicate n (ch ' ')

/-- A text that is not empty and has no space. -/
def Solid (w : Bytes) : Prop := w ≠ [] ∧ ch ' ' ∉ w

theorem Solid.head {w r B : Bytes} {c : Byte} (h : Solid w) (hB : w ++ r = c :: B) :
    c ≠ ch ' ' := by
  obtain ⟨b, w', rfl⟩ := List.exists_cons_of_ne_nil h.1
  rw [List.cons_append] at hB
  rintro rfl
  exact h.2 ((List.cons.inj hB).1 ▸ List.mem_cons_self)

theorem word_append {w : Bytes} (h : ch ' ' ∉ w) (n : Nat) (r : Bytes) :
    word (w ++ (spaces (n + 1) ++ r)) = w := by
  unfold word spaces
  rw [List.takeWhile_append_of_pos (all_ne h), List.replicate_succ, List.cons_append,
    List.takeWhile_cons_of_neg (by simp), List.append_nil]

theorem after_word_append {w : Bytes} (h : ch ' ' ∉ w) (n : Nat) {r : Bytes}
    (hr : ∀ c B, r = c :: B → c ≠ ch ' ') :
    after_word (w ++ (spaces (n + 1) ++ r)) = r := by
  have hspaces : ∀ b ∈ spaces (n + 1), (b == ch ' ') = true := by
    intro b hb
    simpa using List.eq_of_mem_replicate hb
  have hrest : (spaces (n + 1) ++ r).dropWhile (· != ch ' ') = spaces (n + 1) ++ r := by
    unfold spaces
    rw [List.replicate_succ, List.cons_append, List.dropWhile_cons_of_neg (by simp)]
  unfold after_word
  rw [List.dropWhile_append_of_pos (all_ne h), hrest, List.dropWhile_append_of_pos hspaces]
  match r, hr with
  | [], _ => rfl
  | c :: B, hr => exact List.dropWhile_cons_of_neg (by simpa using hr c B rfl)

theorem after_word_solid {w : Bytes} (h : ch ' ' ∉ w) : after_word w = [] := by
  by_contra hne
  exact h (space_of_after_word hne)

theorem solid_word {l : Bytes} (h : l ≠ []) (hhead : ∀ c B, l = c :: B → c ≠ ch ' ') :
    Solid (word l) :=
  ⟨word_ne_nil h hhead, not_mem_word l⟩

/-! ## Three words -/

/-- The words of `B` are `M`, `U` and `T`, and the rest `R` belongs to the last one if nothing is
behind it. -/
structure Three (B R M U T : Bytes) : Prop where
  method : ch ' ' ∉ M
  uri : Solid U
  split : ∃ a b c V, B = M ++ (spaces (a + 1) ++ (U ++ (spaces (b + 1) ++ (V ++ spaces c)))) ∧
    Solid V ∧ T = if c = 0 then V ++ R else V

theorem Three.words {s : Nat} {L M U T : CString}
    (h : Three (L.bytes.take s) (L.bytes.drop s) M.bytes U.bytes T.bytes) :
    words s L = some { method := M, uri := some U, version := some T } := by
  obtain ⟨a, b, c, V, hB, hV, hT⟩ := h.split
  have hU : after_word (L.bytes.take s) = U.bytes ++ (spaces (b + 1) ++ (V ++ spaces c)) := by
    rw [hB]
    exact after_word_append h.method a fun c B => h.uri.head
  have hV' : after_word (U.bytes ++ (spaces (b + 1) ++ (V ++ spaces c))) = V ++ spaces c :=
    after_word_append h.uri.2 b fun c B => hV.head
  have hX : after_word (V ++ spaces c) = [] := by
    cases c with
    | zero => simpa [spaces] using after_word_solid hV.2
    | succ c => simpa using after_word_append hV.2 c (r := []) (by simp)
  have hmethod : text (L.bytes.take s) (L.bytes.drop s) = M.bytes := by
    unfold text
    rw [hB, if_pos (by simp [spaces]), word_append h.method]
  have huri : text (U.bytes ++ (spaces (b + 1) ++ (V ++ spaces c))) (L.bytes.drop s) = U.bytes := by
    unfold text
    rw [if_pos (by simp [spaces]), word_append h.uri.2]
  have hversion : text (V ++ spaces c) (L.bytes.drop s) = T.bytes := by
    unfold text
    rw [hT]
    cases c with
    | zero => simp [spaces, hV.2]
    | succ c =>
      have hword := word_append hV.2 c []
      rw [List.append_nil] at hword
      rw [if_pos (by simp [spaces]), hword, if_neg (by omega)]
  unfold Httpp.words
  simp only [hU, hV', hX, hmethod, huri, hversion, CString.cut_bytes, if_true]
  rw [if_neg, if_neg]
  · simp [hV.1]
  · simp [h.uri.1]

theorem words_three {s : Nat} {L M U T : CString}
    (h : words s L = some { method := M, uri := some U, version := some T }) :
    Three (L.bytes.take s) (L.bytes.drop s) M.bytes U.bytes T.bytes := by
  have hnul : 0 ∉ L.bytes.take s ++ L.bytes.drop s := by
    rw [List.take_append_drop]
    exact L.nulFree
  unfold words at h
  generalize L.bytes.take s = B at *
  generalize L.bytes.drop s = R at *
  have hnulU : 0 ∉ after_word B ++ R :=
    fun h => hnul (((after_word_sublist B).append_right R).mem h)
  have hnulV : 0 ∉ after_word (after_word B) ++ R :=
    fun h => hnulU (((after_word_sublist _).append_right R).mem h)
  simp only [Option.ite_none_right_eq_some, Option.some.injEq, Words.mk.injEq,
    Option.ite_none_left_eq_some] at h
  obtain ⟨hX, rfl, ⟨hU, rfl⟩, hV, rfl⟩ := h
  obtain ⟨n, hB, hn⟩ := word_split B
  obtain ⟨m, hsplit, hm⟩ := word_split (after_word B)
  obtain ⟨c, hrest, hc⟩ := word_split (after_word (after_word B))
  have hmemB := space_of_after_word hU
  have hmemU := space_of_after_word hV
  obtain ⟨a, rfl⟩ : ∃ a, n = a + 1 := ⟨n - 1, by have := hn.mp hmemB; omega⟩
  obtain ⟨b, rfl⟩ : ∃ b, m = b + 1 := ⟨m - 1, by have := hm.mp hmemU; omega⟩
  have hmethod : text B R = word B := if_pos hmemB
  have huri : text (after_word B) R = word (after_word B) := if_pos hmemU
  rw [cut_text hnul, cut_text hnulU, cut_text hnulV, hmethod, huri]
  refine ⟨not_mem_word B,
    solid_word hU fun c B => after_word_head, a, b, c, word (after_word (after_word B)), ?_,
    solid_word hV fun c B => after_word_head, ?_⟩
  · rw [hX, List.append_nil] at hrest
    conv_lhs => rw [hB, hsplit, hrest]
    rfl
  · unfold text
    rcases Nat.eq_zero_or_pos c with rfl | hpos
    · rw [if_neg (fun h => Nat.lt_irrefl 0 (hc.mp h)), if_pos rfl]
      rw [hX] at hrest
      conv_lhs => rw [hrest]
      simp
    · rw [if_pos (hc.mpr hpos), if_neg (by omega)]

/-! ## Methods -/

/-- The enumerator and the name of a method, in any case. -/
def Method (M : CString) (req_type : httpp_request_type_e) (name : CString) : Prop :=
  (req_type, name) ∈ methods ∧ name.bytes.map tolower = M.bytes.map tolower

theorem strcasecmp_map (s t : Bytes) : strcasecmp s t = strcmp (s.map tolower) (t.map tolower) := by
  unfold strcasecmp strcmp
  induction s generalizing t with
  | nil => cases t <;> rfl
  | cons a s ih =>
    cases t with
    | nil => rfl
    | cons b t => simp only [compare_by, List.map_cons, id_eq, ih]

theorem lower_nulFree (s : CString) : 0 ∉ s.bytes.map tolower := by
  intro h
  obtain ⟨b, hb, hzero⟩ := List.mem_map.mp h
  refine tolower_ne_zero b ?_ hzero
  rintro rfl
  exact s.nulFree hb

theorem strcasecmp_eq_zero (s t : CString) :
    strcasecmp s.bytes t.bytes = 0 ↔ s.bytes.map tolower = t.bytes.map tolower := by
  rw [strcasecmp_map, strcmp_eq_zero (lower_nulFree s) (lower_nulFree t)]

theorem methods_distinct :
    ∀ m ∈ methods, ∀ m' ∈ methods, m.2.bytes.map tolower = m'.2.bytes.map tolower → m = m' := by
  decide +kernel

theorem find_method_iff {M : CString} {req_type : httpp_request_type_e} {name : CString} :
    find_method M = some (req_type, name) ↔ Method M req_type name := by
  unfold find_method
  constructor
  · intro h
    refine ⟨List.mem_of_find?_eq_some h, ?_⟩
    rw [← strcasecmp_eq_zero]
    simpa using List.find?_some h
  · rintro ⟨hmem, hname⟩
    match hfind : methods.find? fun m => strcasecmp m.2.bytes M.bytes = 0 with
    | none =>
      rw [List.find?_eq_none] at hfind
      exact absurd ((strcasecmp_eq_zero name M).mpr hname) (by simpa using hfind _ hmem)
    | some m =>
      have hm : strcasecmp m.2.bytes M.bytes = 0 := by simpa using List.find?_some hfind
      rw [strcasecmp_eq_zero] at hm
      rw [hfind, methods_distinct m (List.mem_of_find?_eq_some hfind) _ hmem (hm.trans hname.symm)]

theorem Method.ne_nil {M name : CString} {req_type : httpp_request_type_e}
    (h : Method M req_type name) : M.bytes ≠ [] := by
  have hall : ∀ m ∈ methods, m.2.bytes.map tolower ≠ [] := by decide
  intro hnil
  apply hall _ h.1
  rw [h.2, hnil]
  rfl

/-! ## The form -/

/-- `M SP+ U SP+ P '/' V SP*` -/
structure Form (L M U P V : CString) : Prop where
  line : ∃ a b c, L.bytes = M.bytes ++ (spaces (a + 1) ++
    (U.bytes ++ (spaces (b + 1) ++ (P.bytes ++ ch '/' :: V.bytes ++ spaces c))))
  method : Solid M.bytes ∧ ∃ req_type name, Method M req_type name
  uri : Solid U.bytes
  protocol : Solid P.bytes ∧ ch '/' ∉ P.bytes
  version : Solid V.bytes

/-- The same when spaces are searched in the first `s` bytes. A last word that is not finished there
goes on to the end. -/
structure FormIn (s : Nat) (L M U P V : CString) : Prop where
  line : Three (L.bytes.take s) (L.bytes.drop s) M.bytes U.bytes (P.bytes ++ ch '/' :: V.bytes)
  method : ∃ req_type name, Method M req_type name
  protocol : P.bytes ≠ [] ∧ ch '/' ∉ P.bytes
  version : V.bytes ≠ []

theorem formIn_all {L M U P V : CString} : FormIn L.bytes.length L M U P V ↔ Form L M U P V := by
  constructor
  · intro h
    obtain ⟨a, b, c, W, hL, hW, hT⟩ := h.line.split
    obtain ⟨req_type, name, hmethod⟩ := h.method
    rw [List.take_length] at hL
    rw [List.drop_length, List.append_nil, ite_self] at hT
    rw [← hT] at hL hW
    have hP : ch ' ' ∉ P.bytes := fun hmem => hW.2 (List.mem_append_left _ hmem)
    have hV : ch ' ' ∉ V.bytes :=
      fun hmem => hW.2 (List.mem_append_right _ (List.mem_cons_of_mem _ hmem))
    exact ⟨⟨a, b, c, hL⟩, ⟨⟨hmethod.ne_nil, h.line.method⟩, req_type, name, hmethod⟩, h.line.uri,
      ⟨⟨h.protocol.1, hP⟩, h.protocol.2⟩, ⟨h.version, hV⟩⟩
  · intro h
    obtain ⟨a, b, c, hL⟩ := h.line
    have hsolid : Solid (P.bytes ++ ch '/' :: V.bytes) := by
      refine ⟨by simp, ?_⟩
      rw [List.mem_append, List.mem_cons]
      rintro (hmem | hslash | hmem)
      · exact h.protocol.1.2 hmem
      · exact absurd hslash (by decide)
      · exact h.version.2 hmem
    refine ⟨⟨h.method.1.2, h.uri, a, b, c, P.bytes ++ ch '/' :: V.bytes, ?_, hsolid, ?_⟩,
      h.method.2, ⟨h.protocol.1.1, h.protocol.2⟩, h.version.1⟩
    · rw [List.take_length, hL]
    · rw [List.drop_length, List.append_nil, ite_self]

/-! ## What the code reads -/

/-- What the code accepts has the form, as far as it searches. -/
theorem request_formIn {s : Nat} {L : CString} {r : Request}
    (h : (words s L).bind request = some r) :
    ∃ M, FormIn s L M r.uri r.protocol r.number ∧ Method M r.req_type r.name := by
  obtain ⟨⟨M, uri, version⟩, hwords, hr⟩ := Option.bind_eq_some_iff.mp h
  unfold request at hr
  split at hr
  · rename_i U T req_type name huri hversion hfind
    split_ifs at hr with hparts
    obtain rfl := Option.some.inj hr
    obtain rfl : uri = some U := huri
    obtain rfl : version = some T := hversion
    have hslash : ch '/' ∈ T.bytes := by
      by_contra hmem
      rw [CString.behind_of_not_mem hmem] at hparts
      exact Nat.lt_irrefl 0 hparts.2
    have hT : T.bytes = (T.before (ch '/')).bytes ++ ch '/' :: (T.behind (ch '/')).bytes := by
      rw [← CString.onward_eq hslash, CString.before_append]
    have hmethod : Method M req_type name := find_method_iff.mp hfind
    have hthree := words_three hwords
    rw [hT] at hthree
    refine ⟨M,
      ⟨hthree, ⟨req_type, name, hmethod⟩, ⟨List.length_pos_iff.mp hparts.1, ?_⟩,
      List.length_pos_iff.mp hparts.2⟩, hmethod⟩
    exact fun hmem => absurd (List.mem_takeWhile_imp hmem) (by simp)
  · cases hr

theorem formIn_request {s : Nat} {L M U P V : CString} (h : FormIn s L M U P V) :
    ∃ r, (words s L).bind request = some r ∧ r.uri = U ∧ r.protocol = P ∧ r.number = V ∧
      Method M r.req_type r.name := by
  obtain ⟨req_type, name, hmethod⟩ := h.method
  let T : CString := {
    bytes := P.bytes ++ ch '/' :: V.bytes
    nulFree := by
      rw [List.mem_append, List.mem_cons]
      rintro (hmem | hslash | hmem)
      · exact P.nulFree hmem
      · exact absurd hslash (by decide)
      · exact V.nulFree hmem }
  obtain ⟨hP, hV⟩ := CString.parts_of_append (s := T) rfl h.protocol.2
  have hthree : Three (L.bytes.take s) (L.bytes.drop s) M.bytes U.bytes T.bytes := h.line
  refine ⟨{ req_type, name, uri := U, version := T }, ?_, rfl, hP, hV, hmethod⟩
  rw [hthree.words, Option.bind_some]
  unfold request
  simp only [find_method_iff.mpr hmethod, hP, hV, List.length_pos_iff.mpr h.protocol.1,
    List.length_pos_iff.mpr h.version, and_self, if_true]

theorem FormIn.method_eq {s : Nat} {L M U P V : CString} (h : FormIn s L M U P V) :
    M.bytes = word L.bytes := by
  obtain ⟨a, b, c, W, hB, -, -⟩ := h.line.split
  have hL : L.bytes = M.bytes ++ (spaces (a + 1) ++
      (U.bytes ++ (spaces (b + 1) ++ (W ++ spaces c)) ++ L.bytes.drop s)) := by
    conv_lhs => rw [← List.take_append_drop s L.bytes, hB]
    simp only [List.append_assoc]
  rw [hL, word_append h.line.method]

/-! ## Facts about the request -/

/-- What the variables say about the words of the request line. -/
structure Facts (parser : http_parser_t) (M U P V : CString) : Prop where
  req_type : ∃ name, Method M parser.req_type name ∧
    httpp_getvar parser (some HTTPP_VAR_REQ_TYPE) = .ok (some name)
  protocol : httpp_getvar parser (some HTTPP_VAR_PROTOCOL) = .ok (some P)
  version : httpp_getvar parser (some HTTPP_VAR_VERSION) = .ok (some V)
  uri : parser.uri = some (U.before (ch '?')) ∧
    httpp_getvar parser (some HTTPP_VAR_URI) = .ok (some (U.before (ch '?')))
  rawuri : httpp_getvar parser (some HTTPP_VAR_RAWURI) =
    .ok (if ch '?' ∈ U.bytes then some U else none)
  queryargs : httpp_getvar parser (some HTTPP_VAR_QUERYARGS) =
    .ok (if ch '?' ∈ U.bytes then some (U.onward (ch '?')) else none)
  joined : ∀ raw, httpp_getvar parser (some HTTPP_VAR_RAWURI) = .ok (some raw) →
    ∃ path args, httpp_getvar parser (some HTTPP_VAR_URI) = .ok (some path) ∧
      httpp_getvar parser (some HTTPP_VAR_QUERYARGS) = .ok (some args) ∧
      raw.bytes = path.bytes ++ args.bytes

/-- No header has an internal name. -/
def Plain_headers (d : Bytes) : Prop :=
  ∀ t ∈ header_lines d, ∀ name value, header t = some (name, value) → ¬ Internal name

theorem Plain_headers.last_header {d : Bytes} (h : Plain_headers d) {n : CString}
    (hn : Internal n) :
    last_header ((header_lines d).filter fits) n = none := by
  apply last_value_eq_none
  rintro ⟨name, value⟩ hv rfl
  obtain ⟨t, ht, hheader⟩ := List.mem_filterMap.mp hv
  exact h t (List.mem_of_mem_filter ht) name value hheader hn

theorem request_facts {vars queryvars postvars : Pool} {d : Bytes} {parser : http_parser_t}
    {r : Request} {M : CString} (h : parse_fresh vars queryvars postvars d = .ok (1, parser))
    (hr : request_read d = some r) (hplain : Plain_headers d)
    (hmethod : Method M r.req_type r.name) : Facts parser M r.uri r.protocol r.number := by
  obtain ⟨r', hr', htype, huri, hget⟩ := accepted h
  rw [hr, Option.some.injEq] at hr'
  subst hr'
  have hvalue : ∀ n, Internal n → httpp_getvar parser (some n) = .ok (last_value r.vars n) := by
    intro n hn
    rw [hget, hplain.last_header hn, Option.none_or]
  have huri' : httpp_getvar parser (some HTTPP_VAR_URI) = .ok (some r.path) := by
    rw [hvalue _ (by decide), last_value_uri]
  have hraw :
      httpp_getvar parser (some HTTPP_VAR_RAWURI) =
      .ok (if ch '?' ∈ r.uri.bytes then some r.uri else none) := by
    rw [hvalue _ (by decide)]
    unfold Request.vars query_vars
    split_ifs
    · rfl
    · rfl
  have hargs : httpp_getvar parser (some HTTPP_VAR_QUERYARGS) =
      .ok (if ch '?' ∈ r.uri.bytes then some (r.uri.onward (ch '?')) else none) := by
    rw [hvalue _ (by decide)]
    unfold Request.vars query_vars
    split_ifs
    · rfl
    · rfl
  constructor
  · refine ⟨r.name, htype ▸ hmethod, ?_⟩
    rw [hvalue _ (by decide)]
    unfold Request.vars
    rw [last_value_append, last_value_append]
    rfl
  · rw [hvalue _ (by decide)]
    unfold Request.vars
    rw [last_value_append, last_value_append, last_value_append]
    rfl
  · rw [hvalue _ (by decide)]
    unfold Request.vars
    rw [last_value_append, last_value_append, last_value_append]
    rfl
  · exact ⟨huri, huri'⟩
  · exact hraw
  · exact hargs
  · intro raw hsome
    rw [hraw, Except.ok.injEq] at hsome
    split_ifs at hsome with hmem
    obtain rfl := Option.some.inj hsome
    rw [if_pos hmem] at hargs
    exact ⟨_, _, huri', hargs, (r.uri.before_append (ch '?')).symm⟩

theorem Facts.unique {parser : http_parser_t} {M M' U U' P P' V V' : CString}
    (h : Facts parser M U P V) (h' : Facts parser M' U' P' V') : U = U' ∧ P = P' ∧ V = V' := by
  refine ⟨?_, ?_, ?_⟩
  · have hpath : U.before (ch '?') = U'.before (ch '?') :=
      Option.some.inj (h.uri.1.symm.trans h'.uri.1)
    have hraw := Except.ok.inj (h.rawuri.symm.trans h'.rawuri)
    by_cases hU : ch '?' ∈ U.bytes
    · rw [if_pos hU] at hraw
      split_ifs at hraw with hU'
      exact Option.some.inj hraw
    · rw [if_neg hU] at hraw
      split_ifs at hraw with hU'
      rwa [CString.before_of_not_mem hU, CString.before_of_not_mem hU'] at hpath
  · exact Option.some.inj (Except.ok.inj (h.protocol.symm.trans h'.protocol))
  · exact Option.some.inj (Except.ok.inj (h.version.symm.trans h'.version))

/-- The parse follows the form. -/
def Grammatical (vars queryvars postvars : Pool) (d : Bytes) : Prop :=
  ∃ ret parser, parse_fresh vars queryvars postvars d = .ok (ret, parser) ∧
    (ret = 1 ↔ ∃ M U P V, Form (first_line d) M U P V) ∧
    (ret = 1 → Plain_headers d → ∃ M U P V, Form (first_line d) M U P V ∧ Facts parser M U P V)

/-- **The request line.** The form counts where the bytes that are searched show the same words. -/
theorem request_line_iff (vars queryvars postvars : Pool) (d : Bytes) :
    Grammatical vars queryvars postvars d ↔
      ((∃ M U P V, FormIn (seen (first_line d)) (first_line d) M U P V) ↔
      ∃ M U P V, Form (first_line d) M U P V) ∧
      (Plain_headers d → ∀ M U P V, FormIn (seen (first_line d)) (first_line d) M U P V →
      Form (first_line d) M U P V) := by
  rcases parse_fresh_spec vars queryvars postvars d with ⟨r, parser, hr, hrun, -⟩ |
    ⟨hnone, parser, hrun⟩
  · obtain ⟨M, hform, hmethod⟩ := request_formIn hr
    constructor
    · rintro ⟨ret, parser', hrun', hreturn, hfacts⟩
      rw [hrun] at hrun'
      obtain ⟨rfl, rfl⟩ := Prod.mk.inj (Except.ok.inj hrun')
      refine ⟨iff_of_true ⟨M, _, _, _, hform⟩ (hreturn.mp rfl), ?_⟩
      intro hplain M' U P V hform'
      obtain ⟨M0, U0, P0, V0, hform0, hfacts0⟩ := hfacts rfl hplain
      obtain ⟨r', hr', rfl, rfl, rfl, hmethod'⟩ := formIn_request hform'
      obtain rfl : r = r' := Option.some.inj (hr.symm.trans hr')
      obtain ⟨rfl, rfl, rfl⟩ := hfacts0.unique (request_facts hrun hr hplain hmethod)
      obtain rfl : M0 = M' :=
        CString.ext ((formIn_all.mpr hform0).method_eq.trans hform'.method_eq.symm)
      exact hform0
    · rintro ⟨hexists, hsame⟩
      refine ⟨1, parser, hrun, iff_of_true rfl (hexists.mp ⟨M, _, _, _, hform⟩), ?_⟩
      intro _ hplain
      exact ⟨M, _, _, _, hsame hplain _ _ _ _ hform, request_facts hrun hr hplain hmethod⟩
  · have hno : ¬ ∃ M U P V, FormIn (seen (first_line d)) (first_line d) M U P V := by
      rintro ⟨M, U, P, V, hform⟩
      obtain ⟨r, hr, -⟩ := formIn_request hform
      have hread : request_read d = some r := hr
      rw [hnone] at hread
      cases hread
    constructor
    · rintro ⟨ret, parser', hrun', hreturn, -⟩
      rw [hrun] at hrun'
      obtain ⟨rfl, rfl⟩ := Prod.mk.inj (Except.ok.inj hrun')
      refine ⟨iff_of_false hno fun h => absurd (hreturn.mpr h) (by decide), ?_⟩
      intro _ M U P V hform
      exact absurd ⟨M, U, P, V, hform⟩ hno
    · rintro ⟨hexists, -⟩
      refine ⟨0, parser, hrun, iff_of_false (by decide) fun h => hno (hexists.mpr h), ?_⟩
      intro h
      exact absurd h (by decide)

theorem get_nulFree : 0 ∉ ascii "GET" := by decide

def get : CString := ⟨ascii "GET", get_nulFree⟩
def slash : CString := ⟨ascii "/", by decide⟩
def http : CString := ⟨ascii "HTTP", by decide⟩
def one_zero : CString := ⟨ascii "1.0", by decide⟩

/-- A request line with many spaces. -/
def spaced_text (n : Nat) : Bytes := get.bytes ++ (spaces n ++ ascii "/ HTTP/1.0")

theorem not_mem_spaced {c : Byte} (hc : c ∉ ascii "GET / HTTP/1.0") (n : Nat) :
    c ∉ spaced_text n := by
  have hsplit : ascii "GET / HTTP/1.0" = get.bytes ++ ([ch ' '] ++ ascii "/ HTTP/1.0") := by decide
  rw [hsplit, List.mem_append, List.mem_append, not_or, not_or, List.mem_singleton] at hc
  intro h
  unfold spaced_text at h
  rw [List.mem_append, List.mem_append] at h
  rcases h with h | h | h
  · exact hc.1 h
  · exact hc.2.1 (List.eq_of_mem_replicate h)
  · exact hc.2.2 h

def spaced_line (n : Nat) : CString := ⟨spaced_text n, not_mem_spaced (by decide) n⟩

theorem spaced_line_form (n : Nat) : Form (spaced_line (n + 1)) get slash http one_zero where
  line := ⟨n, 0, 0, rfl⟩
  method := ⟨⟨by decide, by decide⟩, httpp_req_get, get, by decide, rfl⟩
  uri := ⟨by decide, by decide⟩
  protocol := ⟨⟨by decide, by decide⟩, by decide⟩
  version := ⟨by decide, by decide⟩

theorem spaced_line_first (n : Nat) : first_line (spaced_line n).bytes = spaced_line n :=
  cut_clean ⟨not_mem_spaced (by decide) n, not_mem_spaced (by decide) n⟩

theorem spaced_line_seen {n : Nat} (h : 2 ^ 31 ≤ n + 13) (hn : n + 13 < 2 ^ 32) :
    seen (spaced_line n) = 0 := by
  have hlen : (spaced_line n).bytes.length = n + 13 := by
    unfold spaced_line spaced_text spaces
    rw [List.length_append, List.length_append, List.length_replicate]
    have hget : get.bytes.length = 3 := by decide
    have hrest : (ascii "/ HTTP/1.0").length = 10 := by decide
    omega
  have hneg := int_of_size_neg h hn
  unfold seen
  rw [hlen]
  omega

/-- A request line of 2^31 bytes and more. -/
theorem request_line_long :
    ¬ ∀ (vars queryvars postvars : Pool) (d : Bytes), Grammatical vars queryvars postvars d := by
  intro h
  obtain ⟨m, hlong, hm⟩ : ∃ m, 2 ^ 31 ≤ m + 1 + 13 ∧ m + 1 + 13 < 2 ^ 32 :=
    ⟨2 ^ 31 - 1, by omega, by omega⟩
  obtain ⟨ret, parser, hrun, hreturn, -⟩ := h ⟨id, id⟩ ⟨id, id⟩ ⟨id, id⟩ (spaced_line (m + 1)).bytes
  rcases parse_fresh_spec ⟨id, id⟩ ⟨id, id⟩ ⟨id, id⟩ (spaced_line (m + 1)).bytes with
    ⟨r, parser', hr, -⟩ | ⟨-, parser', hrun'⟩
  · obtain ⟨M, hform, -⟩ := request_formIn hr
    obtain ⟨a, b, c, W, hB, -⟩ := hform.line.split
    rw [spaced_line_first, spaced_line_seen hlong hm, List.take_zero] at hB
    have hlen := congrArg List.length hB
    simp [spaces] at hlen
    omega
  · rw [hrun] at hrun'
    obtain ⟨rfl, -⟩ := Prod.mk.inj (Except.ok.inj hrun')
    rw [spaced_line_first] at hreturn
    exact absurd (hreturn.mpr ⟨_, _, _, _, spaced_line_form m⟩) (by decide)

end Httpp
