import IcecastCommon.Httpp.Query
import IcecastCommon.Lib.Hex

/-!
# Form data

Names and values that a browser encodes, and what the parser of a body makes of them. Values are
decoded, names are not.
-/

namespace Httpp

open Lib Avl

/-! ## The encoding -/

/-- The bytes that stand for themselves. -/
def plain (b : Byte) : Bool :=
  ch 'a' ≤ b ∧ b ≤ ch 'z' ∨ ch 'A' ≤ b ∧ b ≤ ch 'Z' ∨ ch '0' ≤ b ∧ b ≤ ch '9' ∨
    b = ch '*' ∨ b = ch '-' ∨ b = ch '.' ∨ b = ch '_'

def digit (d : Nat) : Byte := if d < 10 then UInt8.ofNat (48 + d) else UInt8.ofNat (55 + d)

def form_byte (b : Byte) : Bytes :=
  if b = ch ' ' then [ch '+']
  else if plain b then [b]
  else [ch '%', digit (b.toNat / 16), digit (b.toNat % 16)]

def form (text : Bytes) : Bytes := text.flatMap form_byte

theorem form_byte_all :
    ∀ b, (form_byte b).all (fun c => c ≠ 0 ∧ c ≠ ch ' ' ∧ c ≠ ch '&' ∧ c ≠ ch '=') = true :=
  forall_byte (by decide +kernel)

theorem form_byte_clean (b : Byte) :
    ∀ c ∈ form_byte b, c ≠ 0 ∧ c ≠ ch ' ' ∧ c ≠ ch '&' ∧ c ≠ ch '=' := by
  intro c hc
  exact of_decide_eq_true (List.all_eq_true.mp (form_byte_all b) c hc)

theorem form_clean {text : Bytes} {c : Byte} (hc : c ∈ form text) :
    c ≠ 0 ∧ c ≠ ch ' ' ∧ c ≠ ch '&' ∧ c ≠ ch '=' := by
  obtain ⟨b, -, hb⟩ := List.mem_flatMap.mp hc
  exact form_byte_clean b c hb

theorem form_cons (b : Byte) (text : Bytes) : form (b :: text) = form_byte b ++ form text :=
  List.flatMap_cons

theorem form_byte_pos : ∀ b, 0 < (form_byte b).length := forall_byte (by decide +kernel)

theorem form_ne_nil {text : Bytes} (h : text ≠ []) : form text ≠ [] := by
  obtain ⟨b, rest, rfl⟩ := List.exists_cons_of_ne_nil h
  rw [form_cons, ← List.length_pos_iff, List.length_append]
  have := form_byte_pos b
  omega

/-! Decoding gives the text back. -/

theorem hex_digit {d : Nat} (hd : d < 16) : hex (digit d) = d := by
  have h : ∀ d : Fin 16, hex (digit d) = (d : Nat) := by decide
  exact h ⟨d, hd⟩

theorem plain_self : ∀ b, plain b → b ≠ ch '%' ∧ b ≠ ch '+' ∧ b ≠ ch '#' ∧ b ≠ 0 :=
  forall_byte (by decide +kernel)

theorem unescape_byte (b : Byte) (rest : Bytes) :
    unescape (form_byte b ++ rest) = (unescape rest).map (b :: ·) := by
  have hlt := b.toNat_lt
  have hhi : hex (digit (b.toNat / 16)) = (b.toNat / 16 : Nat) := hex_digit (by omega)
  have hlo : hex (digit (b.toNat % 16)) = (b.toNat % 16 : Nat) := hex_digit (by omega)
  unfold form_byte
  split_ifs with hspace hplain
  · have hplus : ch '+' ≠ ch '%' := by decide
    rw [hspace, List.singleton_append, unescape.eq_def]
    simp only [hplus, if_false, if_true]
  · obtain ⟨h1, h2, h3, h4⟩ := plain_self b hplain
    rw [List.singleton_append, unescape.eq_def]
    simp only [h1, h2, h3, h4, if_false]
  · have hvalue :
        UInt8.ofNat (hex (digit (b.toNat / 16)) * 16 + hex (digit (b.toNat % 16))).toNat = b := by
      have hsum : (hex (digit (b.toNat / 16)) * 16 + hex (digit (b.toNat % 16))).toNat =
          b.toNat := by
        rw [hhi, hlo]
        omega
      rw [hsum]
      simp
    simp only [List.cons_append, List.nil_append]
    rw [unescape, if_pos rfl, if_neg (by omega), hvalue]

theorem unescape_form (text : Bytes) : unescape (form text) = some text := by
  induction text with
  | nil => rfl
  | cons b text ih =>
    rw [form_cons, unescape_byte, ih]
    rfl

/-! ## Pairs -/

/-- A name and a value that are not empty. -/
structure Field where
  name : CString
  value : CString
  name_ne_nil : name.bytes ≠ []
  value_ne_nil : value.bytes ≠ []

def Field.text (p : Field) : Bytes := form p.name.bytes ++ ch '=' :: form p.value.bytes

def body (fields : List Field) : Bytes := [ch '&'].intercalate (fields.map Field.text)

/-- The key that a name becomes. -/
def form_key (s : CString) : CString := ⟨form s.bytes, fun h => (form_clean h).1 rfl⟩

theorem Field.element_text (p : Field) : element p.text = some (form_key p.name, p.value) := by
  have hequals : ch '=' ∉ form p.value.bytes := fun h => (form_clean h).2.2.2 rfl
  have hne : ¬ (form p.name.bytes = [] ∨ form p.value.bytes = []) := by
    rw [not_or]
    exact ⟨form_ne_nil p.name_ne_nil, form_ne_nil p.value_ne_nil⟩
  have hkey : CString.cut (form p.name.bytes) = form_key p.name := (form_key p.name).cut_bytes
  unfold Field.text
  rw [element_append hequals, if_neg hne, unescape_form, Option.map_some, hkey, CString.cut_bytes]

theorem Field.text_clean (p : Field) {c : Byte} (hc : c ∈ p.text) : c ≠ 0 ∧ c ≠ ch '&' := by
  unfold Field.text at hc
  rcases List.mem_append.mp hc with hc | hc
  · exact ⟨(form_clean hc).1, (form_clean hc).2.2.1⟩
  · rcases List.mem_cons.mp hc with rfl | hc
    · decide
    · exact ⟨(form_clean hc).1, (form_clean hc).2.2.1⟩

theorem body_clean (fields : List Field) : 0 ∉ body fields := by
  unfold body
  induction fields with
  | nil => exact List.not_mem_nil
  | cons p fields ih =>
    cases fields with
    | nil =>
      rw [List.map_cons, List.map_nil, List.intercalate_singleton]
      exact fun h => (p.text_clean h).1 rfl
    | cons q fields =>
      rw [List.map_cons, List.map_cons, List.intercalate_cons_cons, List.mem_append,
        List.mem_append, List.mem_singleton, not_or, not_or]
      exact ⟨⟨fun h => (p.text_clean h).1 rfl, by decide⟩, ih⟩

theorem elements_body {fields : List Field} (h : fields ≠ []) :
    elements (body fields) = fields.map Field.text := by
  apply List.splitOn_intercalate
  · intro l hl hmem
    obtain ⟨p, -, rfl⟩ := List.mem_map.mp hl
    exact (p.text_clean hmem).2 rfl
  · simpa using h

/-- A value is found under the encoded name. -/
theorem values_body (fields : List Field) (key : CString) :
    values_of (elements (body fields)) key =
      (fields.filter fun p => form_key p.name = key).map (·.value) := by
  by_cases hnil : fields = []
  · subst hnil
    rfl
  · rw [elements_body hnil]
    unfold values_of
    rw [List.filterMap_map, ← List.filterMap_eq_map, List.filterMap_filter]
    apply List.filterMap_congr
    intro p _
    simp [p.element_text]

/-! ## Names that stand for themselves -/

def Plain (text : Bytes) : Prop := ∀ b ∈ text, plain b = true

theorem form_plain {text : Bytes} (h : Plain text) : form text = text := by
  induction text with
  | nil => rfl
  | cons b text ih =>
    have hb := h b List.mem_cons_self
    have hspace : b ≠ ch ' ' := by
      rintro rfl
      exact absurd hb (by decide)
    rw [form_cons, ih fun c hc => h c (List.mem_cons_of_mem b hc), form_byte,
      if_neg hspace, if_pos hb]
    rfl

theorem form_longer {text : Bytes} (hspace : ch ' ' ∉ text) (h : ¬ Plain text) :
    text.length < (form text).length := by
  induction text with
  | nil => exact absurd (fun b hb => absurd hb List.not_mem_nil) h
  | cons b text ih =>
    rw [List.mem_cons, not_or] at hspace
    rw [form_cons, List.length_append, List.length_cons]
    by_cases hb : plain b
    · have htext : ¬ Plain text := by
        intro hplain
        apply h
        intro c hc
        rcases List.mem_cons.mp hc with rfl | hc
        · exact hb
        · exact hplain c hc
      have := ih hspace.2 htext
      have := form_byte_pos b
      omega
    · have hthree : (form_byte b).length = 3 := by
        unfold form_byte
        rw [if_neg (fun heq => hspace.1 heq.symm), if_neg hb]
        rfl
      have hrest : text.length ≤ (form text).length := by
        by_cases hplain : Plain text
        · rw [form_plain hplain]
        · exact (ih hspace.2 hplain).le
      omega

theorem all_plain {names : List Bytes} (h : ∀ n ∈ names, ∃ m ∈ names, form m = n) :
    ∀ n ∈ names, Plain n := by
  intro n
  induction hlen : n.length using Nat.strong_induction_on generalizing n with
  | _ len ih =>
    intro hn
    by_contra hplain
    obtain ⟨m, hm, rfl⟩ := h n hn
    have hm' : ¬ Plain m := by
      intro hm'
      rw [form_plain hm'] at hplain
      exact hplain hm'
    obtain ⟨m', -, rfl⟩ := h m hm
    have hspace : ch ' ' ∉ form m' := fun hmem => (form_clean hmem).2.1 rfl
    have hlonger := form_longer hspace hm'
    exact hm' (ih _ (by omega) (form m') rfl hm)

/-! ## The round trip -/

/-- The entry of a name holds exactly these values. -/
def HasEntry (tree : var_tree) (name : CString) (values : List CString) : Prop :=
  ∃ v, _httpp_get_param_var tree name = .ok (some v) ∧ tree.values.load v.value = .ok values

theorem Maps.hasEntry_iff {tree : var_tree} {f : CString → List CString} (h : Maps tree f)
    {name : CString} {values : List CString} (hne : values ≠ []) :
    HasEntry tree name values ↔ f name = values := by
  obtain ⟨S, hS, he⟩ := h.entries
  unfold HasEntry
  rcases get_param_var_spec hS he name with ⟨v, hv, rfl, hrun⟩ | ⟨hnone, hrun⟩
  · obtain ⟨a, ha, hget⟩ := he.stored v hv
    constructor
    · rintro ⟨w, hw, hload⟩
      rw [hrun] at hw
      cases hw
      rw [ha, Memory.load_eq hget] at hload
      exact Except.ok.inj hload
    · rintro rfl
      exact ⟨v, hrun, by rw [ha, Memory.load_eq hget]⟩
  · constructor
    · rintro ⟨w, hw, -⟩
      rw [hrun] at hw
      cases hw
    · intro heq
      exact absurd (heq.symm.trans hnone) hne

theorem content_type_nulFree : 0 ∉ ascii "content-type" := by decide

def content_type : CString := ⟨ascii "content-type", content_type_nulFree⟩

def urlencoded : CString := ⟨ascii "application/x-www-form-urlencoded", by decide⟩

/-- A fresh parser gets a form. -/
def post (vars queryvars postvars : Pool) (fields : List Field) : C (Int × http_parser_t) := do
  let parser ← httpp_create vars queryvars postvars
  let parser ← httpp_setvar parser (some content_type) (some urlencoded)
  httpp_parse_postdata parser (some (body fields ++ [0])) (body fields).length

theorem post_spec (vars queryvars postvars : Pool) (fields : List Field) :
    ∃ parser, post vars queryvars postvars fields = .ok (0, parser) ∧
      Maps parser.postvars fun key =>
        (fields.filter fun p => form_key p.name = key).map (·.value) := by
  obtain ⟨parser0, hnew, -, hvars, -, hpost⟩ := create_parser_spec vars queryvars postvars
  obtain ⟨vars', hset, hmaps⟩ := setvar_spec hvars content_type urlencoded
  obtain ⟨tree, hrun, htree⟩ := hpost.store_elements (elements (body fields))
  have hparse :
      parse_query parser0.postvars (some (body fields ++ [0])) (body fields).length = .ok tree :=
    (parse_query_spec parser0.postvars ⟨body fields, body_clean fields⟩ []).trans hrun
  have hheader :
      httpp_getvar { parser0 with vars := vars' } (some content_type) = .ok (some urlencoded) := by
    have hget := hmaps.get_param content_type
    rw [Function.update_self] at hget
    exact hget
  have hsame : strcasecmp urlencoded.bytes (ascii "application/x-www-form-urlencoded") = 0 := by
    decide +kernel
  refine ⟨{ parser0 with vars := vars', postvars := tree }, ?_, ?_⟩
  · unfold post
    rw [hnew, ok_bind, hset, ok_bind]
    unfold httpp_parse_postdata
    change httpp_getvar { parser0 with vars := vars' }
      (some ⟨ascii "content-type", by decide⟩) = _ at hheader
    simp only [hheader, ok_bind, hsame, ne_eq, not_true, if_false, hparse, pure_eq_ok]
  · simp only [List.nil_append, values_body] at htree
    exact htree

/-- The values that go with the name of a field. -/
def values_for (fields : List Field) (name : CString) : List CString :=
  (fields.filter fun p => p.name = name).map (·.value)

/-- **Form data.** The names come back when no name needs a code. -/
theorem postdata_iff (vars queryvars postvars : Pool) (fields : List Field) :
    (∃ parser, post vars queryvars postvars fields = .ok (0, parser) ∧
      ∀ p ∈ fields, HasEntry parser.postvars p.name (values_for fields p.name)) ↔
      ∀ p ∈ fields, Plain p.name.bytes := by
  obtain ⟨parser, hrun, hmaps⟩ := post_spec vars queryvars postvars fields
  have hne : ∀ p ∈ fields, values_for fields p.name ≠ [] := by
    intro p hp
    unfold values_for
    rw [← List.length_pos_iff, List.length_map, List.length_pos_iff]
    exact List.ne_nil_of_mem (List.mem_filter.mpr ⟨hp, by simp⟩)
  constructor
  · rintro ⟨parser', hrun', hentries⟩
    rw [hrun] at hrun'
    cases hrun'
    have hcodes : ∀ n ∈ fields.map (·.name.bytes), ∃ m ∈ fields.map (·.name.bytes), form m = n := by
      intro n hn
      obtain ⟨p, hp, rfl⟩ := List.mem_map.mp hn
      have hentry := (hmaps.hasEntry_iff (hne p hp)).mp (hentries p hp)
      have hfound := hne p hp
      rw [← hentry, ← List.length_pos_iff, List.length_map, List.length_pos_iff] at hfound
      obtain ⟨q, hq⟩ := List.exists_mem_of_ne_nil _ hfound
      rw [List.mem_filter] at hq
      exact ⟨q.name.bytes, List.mem_map_of_mem hq.1,
        congrArg CString.bytes (of_decide_eq_true hq.2)⟩
    intro p hp
    exact all_plain hcodes _ (List.mem_map_of_mem hp)
  · intro hplain
    refine ⟨parser, hrun, ?_⟩
    intro p hp
    rw [hmaps.hasEntry_iff (hne p hp)]
    unfold values_for
    congr 1
    apply List.filter_congr
    intro q hq
    have hkey : form_key q.name = q.name := CString.ext (form_plain (hplain q hq))
    rw [hkey]

def spaced : Field := ⟨⟨ascii "a b", by decide⟩, ⟨ascii "1", by decide⟩, by decide, by decide⟩

/-- A name with a space. -/
theorem postdata_lost :
    ¬ ∀ (vars queryvars postvars : Pool) (fields : List Field),
      ∃ parser, post vars queryvars postvars fields = .ok (0, parser) ∧
        ∀ p ∈ fields, HasEntry parser.postvars p.name (values_for fields p.name) := by
  intro h
  obtain ⟨parser, hrun, hentries⟩ := h ⟨id, id⟩ ⟨id, id⟩ ⟨id, id⟩ [spaced]
  obtain ⟨parser', hrun', hmaps⟩ := post_spec ⟨id, id⟩ ⟨id, id⟩ ⟨id, id⟩ [spaced]
  rw [hrun] at hrun'
  cases hrun'
  have hentry := (hmaps.hasEntry_iff (by decide)).mp (hentries spaced List.mem_cons_self)
  exact absurd hentry (by decide)

end Httpp
