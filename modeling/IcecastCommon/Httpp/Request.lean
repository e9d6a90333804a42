import IcecastCommon.Httpp.Headers
import IcecastCommon.Httpp.Query

/-!
# Requests

What `httpp_parse` makes of a request is a matter of its lines. The strings that the code finds in
the text are the words of the first line, and the header lines behind it.
-/

namespace Httpp

open Lib

/-! ## Words -/

/-- The text up to the first space. -/
def word (l : Bytes) : Bytes := l.takeWhile (· != ch ' ')

/-- The text behind the first word and the spaces that follow it. -/
def after_word (l : Bytes) : Bytes := (l.dropWhile (· != ch ' ')).dropWhile (· == ch ' ')

/-- The text in place, with its spaces overwritten. -/
def blank (l : Bytes) : Bytes := l.map fun c => if c = ch ' ' then 0 else c

theorem blank_append (l l' : Bytes) : blank (l ++ l') = blank l ++ blank l' := List.map_append

@[simp] theorem blank_length (l : Bytes) : (blank l).length = l.length := List.length_map _

theorem blank_of_not_mem {l : Bytes} (h : ch ' ' ∉ l) : blank l = l := by
  conv_rhs => rw [← List.map_id l]
  apply List.map_congr_left
  intro c hc
  apply if_neg
  rintro rfl
  exact h hc

theorem blank_spaces (n : Nat) : blank (List.replicate n (ch ' ')) = List.replicate n 0 :=
  List.map_replicate

theorem not_mem_word (l : Bytes) : ch ' ' ∉ word l :=
  fun h => absurd (List.mem_takeWhile_imp h) (by simp)

theorem after_word_head {l B : Bytes} {c : Byte} (h : after_word l = c :: B) : c ≠ ch ' ' := by
  simpa using head_dropWhile h

theorem word_split (l : Bytes) : ∃ n, l = word l ++ (List.replicate n (ch ' ') ++ after_word l) ∧
    (ch ' ' ∈ l ↔ 0 < n) := run_split (ch ' ') l

theorem space_of_after_word {l : Bytes} (h : after_word l ≠ []) : ch ' ' ∈ l := by
  by_contra hmem
  apply h
  unfold after_word
  rw [dropWhile_nil_iff.mpr hmem]
  rfl

theorem after_word_sublist (l : Bytes) : (after_word l).Sublist l :=
  (List.dropWhile_sublist _).trans (List.dropWhile_sublist _)

/-- Where the next word starts. -/
def next_start (l : Bytes) : Nat := l.length - (after_word l).length

theorem take_next_start (l : Bytes) :
    ∃ n, l.take (next_start l) = word l ++ List.replicate n (ch ' ') ∧
      next_start l = (word l).length + n ∧
      l.length = (word l).length + (n + (after_word l).length) ∧ (ch ' ' ∈ l ↔ 0 < n) := by
  obtain ⟨n, hsplit, hspace⟩ := word_split l
  have hlen : l.length = (word l).length + (n + (after_word l).length) := by
    conv_lhs => rw [hsplit]
    simp
  have hstart : next_start l = (word l).length + n := by
    unfold next_start
    omega
  refine ⟨n, ?_, hstart, hlen, hspace⟩
  rw [congrArg (List.take (next_start l)) hsplit, hstart, ← List.append_assoc]
  exact List.take_left' (by simp)

theorem drop_next_start (l : Bytes) : l.drop (next_start l) = after_word l := by
  obtain ⟨n, hsplit, -⟩ := word_split l
  obtain ⟨m, htake, hstart, hlen, -⟩ := take_next_start l
  have hlen' := congrArg List.length hsplit
  rw [List.length_append, List.length_append, List.length_replicate] at hlen'
  obtain rfl : n = m := by omega
  rw [congrArg (List.drop (next_start l)) hsplit, hstart, ← List.append_assoc]
  exact List.drop_left' (by simp)

theorem next_start_length (A l : Bytes) :
    (A ++ blank (l.take (next_start l))).length = A.length + next_start l := by
  have hle : next_start l ≤ l.length := Nat.sub_le _ _
  rw [List.length_append, blank_length, List.length_take_of_le hle]

/-! ## A loop over the first line -/

/-- A loop that overwrites spaces and goes on in a word. It may do anything where a word starts
behind a space. -/
structure Scans {α : Type} (loop : Nat → Nat → Bool → Bytes → C α) (result : Bytes → C α) :
    Prop where
  stop : ∀ i whitespace data, loop 0 i whitespace data = result data
  space : ∀ n (A B : Bytes) whitespace,
    loop (n + 1) A.length whitespace (A ++ ch ' ' :: B) = loop n (A.length + 1) true (A ++ 0 :: B)
  letter : ∀ n (A B : Bytes) c, c ≠ ch ' ' →
    loop (n + 1) A.length false (A ++ c :: B) = loop n (A.length + 1) false (A ++ c :: B)

namespace Scans

variable {α : Type} {loop : Nat → Nat → Bool → Bytes → C α} {result : Bytes → C α}

theorem word (h : Scans loop result) (w A B : Bytes) (n : Nat) (hw : ch ' ' ∉ w) :
    loop (w.length + n) A.length false (A ++ (w ++ B)) =
      loop n (A.length + w.length) false (A ++ (w ++ B)) := by
  induction w generalizing A with
  | nil => rw [List.length_nil, Nat.zero_add, Nat.add_zero]
  | cons c w ih =>
    rw [List.mem_cons, not_or] at hw
    have hc : c ≠ ch ' ' := fun heq => hw.1 heq.symm
    have hnext := ih (A ++ [c]) hw.2
    have htext : A ++ [c] ++ (w ++ B) = A ++ (c :: w ++ B) := by simp
    have hlen : (A ++ [c]).length = A.length + 1 := by simp
    have hsum : A.length + 1 + w.length = A.length + (c :: w).length := by
      rw [List.length_cons]
      omega
    have hfuel : (c :: w).length + n = (w.length + n) + 1 := by
      rw [List.length_cons]
      omega
    rw [htext, hlen, hsum] at hnext
    rw [hfuel, List.cons_append, h.letter _ _ _ _ hc]
    exact hnext

theorem spaces (h : Scans loop result) (m n : Nat) (A B : Bytes) (whitespace : Bool) :
    loop (m + n) A.length whitespace (A ++ (List.replicate m (ch ' ') ++ B)) =
      loop n (A.length + m) (whitespace || decide (0 < m)) (A ++ (List.replicate m 0 ++ B)) := by
  induction m generalizing A whitespace with
  | zero => simp
  | succ m ih =>
    have hnext := ih (A ++ [0]) true
    have htext (b c : Byte) :
        A ++ [b] ++ (List.replicate m c ++ B) = A ++ b :: (List.replicate m c ++ B) := by simp
    have hlen : (A ++ [0]).length = A.length + 1 := by simp
    have hsum : A.length + 1 + m = A.length + (m + 1) := by omega
    have hfuel : m + 1 + n = (m + n) + 1 := by omega
    rw [htext, htext, hlen, hsum] at hnext
    rw [hfuel, List.replicate_succ, List.cons_append, h.space, hnext]
    simp [List.replicate_succ]

theorem step (h : Scans loop result) (l E A : Bytes) :
    loop l.length A.length false (A ++ (l ++ E)) =
      if after_word l = [] then result (A ++ (blank l ++ E))
      else loop (after_word l).length (A.length + next_start l) true
        (A ++ blank (l.take (next_start l)) ++ (after_word l ++ E)) := by
  obtain ⟨n, htake, hstart, hlen, hspace⟩ := take_next_start l
  have hsplit : l = Httpp.word l ++ (List.replicate n (ch ' ') ++ after_word l) := by
    rw [← List.append_assoc, ← htake, ← drop_next_start, List.take_append_drop]
  have htext :
      A ++ (l ++ E) =
      A ++ (Httpp.word l ++ (List.replicate n (ch ' ') ++ (after_word l ++ E))) := by
    conv_lhs => rw [hsplit]
    simp only [List.append_assoc]
  have hblank : blank (l.take (next_start l)) = Httpp.word l ++ List.replicate n 0 := by
    rw [htake, blank_append, blank_of_not_mem (not_mem_word l), blank_spaces]
  have hwords := h.word (Httpp.word l) A (List.replicate n (ch ' ') ++ (after_word l ++ E))
    (n + (after_word l).length) (not_mem_word l)
  have hspaces := h.spaces n (after_word l).length (A ++ Httpp.word l) (after_word l ++ E) false
  rw [List.append_assoc, List.append_assoc, List.length_append] at hspaces
  rw [hlen, htext, hwords, hspaces, hblank, Nat.add_assoc, ← hstart]
  split_ifs with hnil
  · have hall : blank l = Httpp.word l ++ List.replicate n 0 := by
      rw [← hblank, hstart]
      congr 1
      rw [hnil, List.length_nil, Nat.add_zero] at hlen
      rw [← hlen, List.take_length]
    rw [hnil, hall, List.length_nil, h.stop]
    simp
  · have hpos : 0 < n := hspace.mp (space_of_after_word hnil)
    have hws : (false || decide (0 < n)) = true := by simpa using hpos
    rw [hws]
    simp only [List.append_assoc]

end Scans

/-! ## The words of a request -/

section Loop

variable (k : Nat) (uri version : Option Nat)

theorem request_scans :
    Scans (fun n i whitespace data => request_loop 0 n i whitespace k uri version data)
    fun data => .ok (some (data, uri, version)) where
  stop _ _ _ := rfl
  space n A B whitespace := by
    rw [request_loop, Nat.zero_add, read_middle, ok_bind, if_pos rfl, store_middle, ok_bind]
  letter n A B c hc := by
    rw [request_loop, Nat.zero_add, read_middle, ok_bind, if_neg hc]
    rfl

theorem request_start (A B : Bytes) {c : Byte} (hc : c ≠ ch ' ') (n : Nat) :
    request_loop 0 (n + 1) A.length true k uri version (A ++ c :: B) =
      match k + 1 with
      | 1 => request_loop 0 (n + 1) A.length false 1 (some A.length) version (A ++ c :: B)
      | 2 => request_loop 0 (n + 1) A.length false 2 uri (some A.length) (A ++ c :: B)
      | 3 => .ok none
      | k => request_loop 0 (n + 1) A.length false k uri version (A ++ c :: B) := by
  have hfalse (k : Nat) (uri version : Option Nat) :
    request_loop 0 (n + 1) A.length false k uri version (A ++ c :: B) =
      request_loop 0 n (A.length + 1) false k uri version (A ++ c :: B) := by
    rw [request_loop, Nat.zero_add, read_middle, ok_bind, if_neg hc]
    rfl
  simp only [hfalse]
  rw [request_loop, Nat.zero_add, read_middle, ok_bind, if_neg hc, if_pos rfl]
  rfl

theorem request_step (l E A : Bytes) :
    request_loop 0 l.length A.length false k uri version (A ++ (l ++ E)) =
      if after_word l = [] then .ok (some (A ++ (blank l ++ E), uri, version))
      else request_loop 0 (after_word l).length (A.length + next_start l) true k uri version
        (A ++ blank (l.take (next_start l)) ++ (after_word l ++ E)) :=
  (request_scans k uri version).step l E A

theorem request_next (l E A : Bytes) (h : after_word l ≠ []) {A' : Bytes}
    (hA' : A' = A ++ blank (l.take (next_start l))) :
    request_loop 0 l.length A.length false k uri version (A ++ (l ++ E)) =
      match k + 1 with
      | 1 => request_loop 0 (after_word l).length A'.length false 1 (some A'.length) version
          (A' ++ (after_word l ++ E))
      | 2 => request_loop 0 (after_word l).length A'.length false 2 uri (some A'.length)
          (A' ++ (after_word l ++ E))
      | 3 => .ok none
      | k => request_loop 0 (after_word l).length A'.length false k uri version
          (A' ++ (after_word l ++ E)) := by
  obtain ⟨c, B, hB⟩ := List.exists_cons_of_ne_nil h
  have hlen : A.length + next_start l = A'.length := by
    rw [hA', next_start_length]
  rw [request_step, if_neg h, hlen, ← hA', hB, List.length_cons, List.cons_append]
  exact request_start k uri version A' (B ++ E) (after_word_head hB) B.length

end Loop

theorem blank_next_start (l : Bytes) :
    blank (l.take (next_start l)) ++ blank (after_word l) = blank l := by
  rw [← drop_next_start, ← blank_append, List.take_append_drop]

/-- The words start behind spaces, and there may be three of them. -/
theorem request_loop_spec (B E : Bytes) :
    request_loop 0 B.length 0 false 0 none none (B ++ E) =
      .ok (if after_word (after_word (after_word B)) = [] then
        some (blank B ++ E, if after_word B = [] then none else some (next_start B),
          if after_word (after_word B) = [] then none
          else some (next_start B + next_start (after_word B)))
        else none) := by
  have hfirst := request_step 0 none none B E []
  rw [List.length_nil, List.nil_append, List.nil_append] at hfirst
  by_cases hU : after_word B = []
  · rw [hfirst, if_pos hU, hU]
    rfl
  have hsecond := request_next 0 none none B E [] hU rfl
  let A := [] ++ blank (B.take (next_start B))
  have hA : A.length = next_start B := (next_start_length [] B).trans (Nat.zero_add _)
  rw [List.length_nil, List.nil_append] at hsecond
  rw [hsecond, if_neg hU]
  show request_loop 0 (after_word B).length A.length false 1 (some A.length) none
    (A ++ (after_word B ++ E)) = _
  by_cases hV : after_word (after_word B) = []
  · rw [request_step, if_pos hV, hV, ← List.append_assoc, hA]
    have hblank : A ++ blank (after_word B) = blank B := blank_next_start B
    rw [hblank]
    rfl
  rw [request_next 1 (some A.length) none (after_word B) E A hV rfl, if_neg hV]
  let A2 := A ++ blank ((after_word B).take (next_start (after_word B)))
  have hA2 : A2.length = next_start B + next_start (after_word B) := by rw [next_start_length, hA]
  show request_loop 0 (after_word (after_word B)).length A2.length false 2 (some A.length)
    (some A2.length)
    (A2 ++ (after_word (after_word B) ++ E)) = _
  split_ifs with hX
  · have hblank : A2 ++ blank (after_word (after_word B)) = blank B := by
      rw [List.append_assoc, blank_next_start]
      exact blank_next_start B
    rw [request_step, if_pos hX, ← List.append_assoc, hblank, hA, hA2]
  · exact request_next 2 _ _ (after_word (after_word B)) E A2 hX rfl

/-! ## The words as strings -/

/-- The first word of `l`. Without a space there it goes on to the end of the line. -/
def text (l R : Bytes) : Bytes := if ch ' ' ∈ l then word l else l ++ R

structure Words where
  method : CString
  uri : Option CString
  version : Option CString
deriving DecidableEq

/-- The words of a line, where spaces are searched in the first `s` bytes. None for four words. -/
def words (s : Nat) (L : CString) : Option Words :=
  let B := L.bytes.take s
  let R := L.bytes.drop s
  let U := after_word B
  let V := after_word U
  if after_word V = [] then
    some {
      method := CString.cut (text B R)
      uri := if U = [] then none else some (CString.cut (text U R))
      version := if V = [] then none else some (CString.cut (text V R)) }
  else none

theorem text_sublist (l R : Bytes) : (text l R).Sublist (l ++ R) := by
  unfold text
  split_ifs
  · exact (List.takeWhile_sublist _).trans (List.sublist_append_left l R)
  · exact List.Sublist.refl _

theorem blank_text (l R rest : Bytes) :
    ∃ rest', blank l ++ (R ++ 0 :: rest) = text l R ++ 0 :: rest' := by
  unfold text
  split_ifs with h
  · obtain ⟨n, hsplit, hspace⟩ := word_split l
    obtain ⟨m, rfl⟩ : ∃ m, n = m + 1 := ⟨n - 1, by have := hspace.mp h; omega⟩
    refine ⟨List.replicate m 0 ++ blank (after_word l) ++ (R ++ 0 :: rest), ?_⟩
    rw [congrArg blank hsplit, blank_append, blank_append, blank_of_not_mem (not_mem_word l),
      blank_spaces, List.replicate_succ]
    simp
  · exact ⟨rest, by rw [blank_of_not_mem h, List.append_assoc]⟩

theorem cut_text {l R : Bytes} (h : 0 ∉ l ++ R) : (CString.cut (text l R)).bytes = text l R :=
  congrArg CString.bytes (CString.cut_bytes ⟨text l R, fun hmem => h ((text_sublist l R).mem hmem)⟩)

theorem string_text {data l R rest : Bytes} {p : Nat}
    (h : data.drop p = blank l ++ (R ++ 0 :: rest)) (hnul : 0 ∉ l ++ R) :
    ∃ rest', data.drop p = (CString.cut (text l R)).bytes ++ 0 :: rest' := by
  obtain ⟨rest', hrest⟩ := blank_text l R rest
  exact ⟨rest', by rw [h, hrest, cut_text hnul]⟩

/-! ## The strings of a request -/

/-- The URI as the parser keeps it. -/
def request_uri (parser : http_parser_t) (uri : CString) : C http_parser_t := do
  if ch '?' ∈ uri.bytes then
    let parser ← httpp_setvar parser (some HTTPP_VAR_RAWURI) (some uri)
    let parser ← httpp_setvar parser (some HTTPP_VAR_QUERYARGS) (some (uri.onward (ch '?')))
    let queryvars ← (elements (uri.behind (ch '?')).bytes).foldlM store_element parser.queryvars
    return { parser with queryvars, uri := some (uri.before (ch '?')) }
  else return { parser with uri := some uri }

theorem parse_uri_spec {data rest : Bytes} {p : Nat} {uri : CString}
    (h : data.drop p = uri.bytes ++ 0 :: rest) (hne : uri.bytes ≠ []) (parser : http_parser_t) :
    ∃ data', (∀ q, p + uri.bytes.length ≤ q → data'.drop q = data.drop q) ∧
      parse_uri parser data (some p) = (do
        let parser ← request_uri parser uri
        return (true, parser, data')) := by
  have hlen : uri.bytes.length > 0 := List.length_pos_iff.mpr hne
  unfold parse_uri request_uri
  simp only [string_at_eq uri h, ok_bind, if_pos hlen, strchr_eq h]
  by_cases hquery : ch '?' ∈ uri.bytes
  · obtain ⟨data', hstore, hpath, hbehind, hsame⟩ := store_nul h hquery
    have honward :
        string_at data (p + (uri.before (ch '?')).bytes.length) = .ok (uri.onward (ch '?')) := by
      apply string_at_eq
      rw [CString.onward_eq hquery]
      have hsplit :
          data.drop p = (uri.before (ch '?')).bytes ++
          ((uri.onward (ch '?')).bytes ++ 0 :: rest) := by
        rw [h, ← List.append_assoc, CString.before_append]
      rw [drop_behind hsplit, CString.onward_eq hquery]
    refine ⟨data', hsame, ?_⟩
    simp only [if_pos hquery, honward, hstore, ok_bind, string_at_eq _ hpath,
      string_at_eq _ hbehind, hbehind, parse_query_spec, bind_assoc, pure_eq_ok]
  · refine ⟨data, fun _ _ => rfl, ?_⟩
    simp only [if_neg hquery, ok_bind, pure_eq_ok]

/-- The protocol and its version. -/
def request_version (parser : http_parser_t) (version : CString) : C (Bool × http_parser_t) := do
  let protocol := version.before (ch '/')
  let number := version.behind (ch '/')
  if protocol.bytes.length > 0 ∧ number.bytes.length > 0 then
    let parser ← httpp_setvar parser (some HTTPP_VAR_PROTOCOL) (some protocol)
    let parser ← httpp_setvar parser (some HTTPP_VAR_VERSION) (some number)
    return (true, parser)
  else return (false, parser)

theorem parse_version_spec {data rest : Bytes} {p : Nat} {version : CString}
    (h : data.drop p = version.bytes ++ 0 :: rest) (parser : http_parser_t) :
    ∃ data', (∀ q, p + version.bytes.length ≤ q → data'.drop q = data.drop q) ∧
      parse_version parser data (some p) = (do
        let (more, parser) ← request_version parser version
        return (more, parser, data')) := by
  unfold parse_version request_version
  simp only [strchr_eq h, ok_bind]
  by_cases hslash : ch '/' ∈ version.bytes
  · obtain ⟨data', hstore, hprotocol, hnumber, hsame⟩ := store_nul h hslash
    refine ⟨data', hsame, ?_⟩
    simp only [if_pos hslash, hstore, ok_bind, string_at_eq _ hprotocol, string_at_eq _ hnumber]
    split_ifs
    · simp only [bind_assoc, pure_eq_ok, ok_bind]
    · rfl
  · refine ⟨data, fun _ _ => rfl, ?_⟩
    have hnone :
        ¬ ((version.before (ch '/')).bytes.length > 0 ∧
        (version.behind (ch '/')).bytes.length > 0) := by
      rw [CString.behind_of_not_mem hslash]
      simp
    rw [if_neg hslash, if_neg hnone]
    rfl

/-- `parse_rest` on the strings. -/
def perform_rest (parser : http_parser_t) (uri version : Option CString) (headers : List CString) :
    C (Int × http_parser_t) := do
  match uri with
  | none => return (0, parser)
  | some uri =>
    let parser ← request_uri parser uri
    match version with
    | none => return (0, parser)
    | some version =>
      let (more, parser) ← request_version parser version
      if !more then return (0, parser)
      let (more, parser) ← set_req_type parser
      if !more then return (0, parser)
      let (more, parser) ← set_uri parser
      if !more then return (0, parser)
      return (1, ← headers.foldlM store_header parser)

/-- `httpp_parse` on the strings. -/
def perform (parser : http_parser_t) (words : Option Words) (headers : List CString) :
    C (Int × http_parser_t) :=
  match words with
  | none => return (0, parser)
  | some words =>
    perform_rest { parser with req_type := httpp_str_to_method words.method } words.uri
      words.version headers

/-! ## The lines of a request -/

theorem next_start_add (l : Bytes) : next_start l + (after_word l).length = l.length := by
  have hle := (after_word_sublist l).length_le
  unfold next_start
  omega

theorem text_length (l R : Bytes) : (text l R).length ≤ l.length + R.length := by
  rw [← List.length_append]
  exact (text_sublist l R).length_le

theorem text_next (l R : Bytes) (h : after_word l ≠ []) : (text l R).length ≤ next_start l := by
  obtain ⟨n, hsplit, -⟩ := word_split l
  have hlen := congrArg List.length hsplit
  rw [List.length_append, List.length_append, List.length_replicate] at hlen
  unfold text next_start
  rw [if_pos (space_of_after_word h)]
  omega

theorem drop_blank (B E : Bytes) :
    (blank B ++ E).drop (next_start B) = blank (after_word B) ++ E := by
  rw [← blank_next_start, List.append_assoc]
  exact List.drop_left' ((next_start_length [] B).trans (Nat.zero_add _))

theorem word_ne_nil {l : Bytes} (h : l ≠ []) (hhead : ∀ c B, l = c :: B → c ≠ ch ' ') :
    word l ≠ [] := by
  obtain ⟨c, B, hB⟩ := List.exists_cons_of_ne_nil h
  have hc : (c != ch ' ') = true := by simpa using hhead c B hB
  have hword : word l = c :: word B := by
    unfold word
    rw [hB]
    exact List.takeWhile_cons_of_pos hc
  rw [hword]
  exact List.cons_ne_nil _ _

theorem text_ne_nil {l R : Bytes} (h : l ≠ []) (hhead : ∀ c B, l = c :: B → c ≠ ch ' ') :
    text l R ≠ [] := by
  unfold text
  split_ifs
  · exact word_ne_nil h hhead
  · simp [h]

theorem parse_headers_spec {d data data' : Bytes} {line : Nat → Option Nat} {o : Nat}
    (hlined : Lined data line 1 o (header_lines d)) (hsame : ∀ q ≥ o, data'.drop q = data.drop q)
    (parser : http_parser_t) :
    parse_headers parser data' line (lf_lines MAX_HEADERS d).length =
      (header_lines d).foldlM store_header parser := by
  have hlen : (lf_lines MAX_HEADERS d).length - 1 = (header_lines d).length := by
    unfold header_lines
    rw [List.length_map, List.length_tail]
  unfold parse_headers
  rw [hlen]
  exact parse_headers_loop_spec (hlined.congr hsame) parser

/-- A string behind a pointer. -/
def Points (data : Bytes) (o : Nat) : Option Nat → Option CString → Prop
  | none, none => True
  | some p, some s =>
    p + s.bytes.length ≤ o ∧ s.bytes ≠ [] ∧ ∃ rest, data.drop p = s.bytes ++ 0 :: rest
  | _, _ => False

theorem points_text {data l R rest : Bytes} {p o : Nat}
    (h : data.drop p = blank l ++ (R ++ 0 :: rest)) (hnul : 0 ∉ l ++ R)
    (hhead : ∀ c B, l = c :: B → c ≠ ch ' ') (ho : l ≠ [] → p + (text l R).length ≤ o) :
    Points data o (if l = [] then none else some p)
      (if l = [] then none else some (CString.cut (text l R))) := by
  split_ifs with hl
  · trivial
  · obtain ⟨rest', hrest⟩ := string_text h hnul
    refine ⟨?_, ?_, rest', hrest⟩
    · rw [cut_text hnul]
      exact ho hl
    · rw [cut_text hnul]
      exact text_ne_nil hl hhead

theorem parse_rest_spec {d data : Bytes} {line : Nat → Option Nat} {o : Nat}
    {uri version : Option Nat} {uri_text version_text : Option CString}
    (huri : Points data (version.getD o) uri uri_text)
    (hversion : Points data o version version_text) (hlined : Lined data line 1 o (header_lines d))
    (parser : http_parser_t) :
    parse_rest parser data line (lf_lines MAX_HEADERS d).length uri version =
      perform_rest parser uri_text version_text (header_lines d) := by
  unfold parse_rest perform_rest
  match uri, uri_text, huri with
  | none, none, _ => rfl
  | some p, some t, huri =>
    obtain ⟨hp, hne, rest, hdrop⟩ := huri
    obtain ⟨data1, hsame1, hrun1⟩ := parse_uri_spec hdrop hne parser
    rw [hrun1]
    simp only [bind_assoc, pure_eq_ok, ok_bind]
    refine bind_congr fun parser1 => ?_
    match version, version_text, hversion with
    | none, none, _ => rfl
    | some v, some u, hversion =>
      obtain ⟨hv, -, rest', hdrop'⟩ := hversion
      have hsame (q : Nat) (hq : v ≤ q) : data1.drop q = data.drop q :=
        hsame1 q (Nat.le_trans hp hq)
      obtain ⟨data2, hsame2, hrun2⟩ :=
        parse_version_spec ((hsame v (Nat.le_refl v)).trans hdrop') parser1
      have hbehind (q : Nat) (hq : q ≥ o) : data2.drop q = data.drop q := by
        rw [hsame2 q (Nat.le_trans hv hq), hsame q (by omega)]
      have hheaders := parse_headers_spec hlined hbehind
      rw [hrun2]
      simp only [bind_assoc, pure_eq_ok, ok_bind, hheaders, Bool.not_true,
        Bool.false_eq_true, if_false]

/-- The length of a line as the code sees it. -/
def seen (L : CString) : Nat := (int_of_size L.bytes.length).toNat

theorem seen_length (L : CString) : (L.bytes.take (seen L)).length = seen L := by
  have hle := int_of_size_le L.bytes.length
  exact List.length_take_of_le (by unfold seen; omega)

theorem split_first (d : Bytes) :
    ∃ data line rest, split_headers (d ++ [0]) d.length =
      .ok (data, line, (lf_lines MAX_HEADERS d).length) ∧
      get_line line 0 = .ok 0 ∧ int_strlen data 0 = .ok (int_of_size (first_line d).bytes.length) ∧
      data = (first_line d).bytes.take (seen (first_line d)) ++
      ((first_line d).bytes.drop (seen (first_line d)) ++ 0 :: rest) ∧
      Lined data line 1 ((first_line d).bytes.length + 1) (header_lines d) := by
  obtain ⟨data, line, rest, hsplit, hdata, hline, hlined⟩ := split_headers_spec d
  refine ⟨data, line, rest, hsplit, ?_,
    int_strlen_eq (string_at_eq (first_line d) (show data.drop 0 = _ from hdata)), ?_, hlined⟩
  · unfold get_line
    rw [hline]
    rfl
  · rw [hdata, ← List.append_assoc, List.take_append_drop]

theorem Lined.blanked {B E : Bytes} {line : Nat → Option Nat} {o : Nat} {ls : List CString}
    (h : Lined (B ++ E) line 1 o ls) (ho : B.length ≤ o) :
    Lined (blank B ++ E) line 1 o ls := by
  refine h.congr fun q hq => ?_
  have hbehind (u : Bytes) (hu : u.length = B.length) :
      (u ++ E).drop q = E.drop (q - B.length) := by
    rw [List.drop_append, List.drop_of_length_le (by omega), List.nil_append, hu]
  rw [hbehind B rfl, hbehind (blank B) (blank_length B)]

theorem blanked_method {B R rest : Bytes} (hnul : 0 ∉ B ++ R) :
    string_at (blank B ++ (R ++ 0 :: rest)) 0 = .ok (CString.cut (text B R)) := by
  have hfront : (blank B ++ (R ++ 0 :: rest)).drop 0 = blank B ++ (R ++ 0 :: rest) := rfl
  obtain ⟨rest', hrest⟩ := string_text hfront hnul
  exact string_at_eq _ hrest

/-- **Requests.** A parse looks at nothing but the lines. -/
theorem httpp_parse_spec (parser : http_parser_t) (d : Bytes) :
    httpp_parse parser (some d) d.length =
      perform parser (words (seen (first_line d)) (first_line d)) (header_lines d) := by
  obtain ⟨data, line, rest, hsplit, hget, hslen, htext, hlined⟩ := split_first d
  have hslice : slice d 0 d.length = .ok d := by rw [slice_front (Nat.le_refl _), List.take_length]
  have hB := seen_length (first_line d)
  have hBR := List.take_append_drop (seen (first_line d)) (first_line d).bytes
  unfold seen at *
  generalize int_of_size (first_line d).bytes.length = slen at *
  unfold httpp_parse words
  simp only [hslice, ok_bind, hsplit, hget]
  rw [hslen, ok_bind]
  generalize (first_line d).bytes.take slen.toNat = B at *
  generalize (first_line d).bytes.drop slen.toNat = R at *
  have hnul : 0 ∉ B ++ R := hBR ▸ (first_line d).nulFree
  have hlen : (first_line d).bytes.length = B.length + R.length := by rw [← hBR, List.length_append]
  rw [htext, ← hB, request_loop_spec, ok_bind]
  by_cases hX : after_word (after_word (after_word B)) = []
  swap
  · rw [if_neg hX, if_neg hX]
    rfl
  rw [if_pos hX, if_pos hX]
  have hlines : Lined (blank B ++ (R ++ 0 :: rest)) line 1 ((first_line d).bytes.length + 1)
      (header_lines d) :=
    (htext ▸ hlined).blanked (by omega)
  show (do
    let method ← string_at (blank B ++ (R ++ 0 :: rest)) 0
    parse_rest { parser with req_type := httpp_str_to_method method } _ line _ _ _) = _
  rw [blanked_method hnul, ok_bind]
  have hU : 0 ∉ after_word B ++ R := fun h => hnul (((after_word_sublist B).append_right R).mem h)
  have hV : 0 ∉ after_word (after_word B) ++ R :=
    fun h => hU (((after_word_sublist _).append_right R).mem h)
  have hstart := next_start_add B
  have hstart2 := next_start_add (after_word B)
  have hdrop :
      (blank B ++ (R ++ 0 :: rest)).drop (next_start B) = blank (after_word B) ++
      (R ++ 0 :: rest) := drop_blank B _
  have hdrop2 : (blank B ++ (R ++ 0 :: rest)).drop (next_start B + next_start (after_word B)) =
      blank (after_word (after_word B)) ++ (R ++ 0 :: rest) := by
    rw [← List.drop_drop, hdrop, drop_blank]
  apply parse_rest_spec _ _ hlines
  · apply points_text hdrop hU fun c B' => after_word_head
    intro hne
    have htextlen := text_length (after_word B) R
    have hnext := text_next (after_word B) R
    split_ifs with hnone
    · rw [Option.getD_none]
      omega
    · rw [Option.getD_some]
      exact Nat.add_le_add_left (hnext hnone) _
  · apply points_text hdrop2 hV fun c B' => after_word_head
    intro hne
    have htextlen := text_length (after_word (after_word B)) R
    omega

end Httpp
