import IcecastCommon.Httpp.Lines
import IcecastCommon.Lib.Hex

/-!
# Headers

What `parse_headers` makes of the lines behind the first one.
-/

namespace Httpp

open Lib

/-! ## One header -/

/-- The text behind the first colon, without the colons and spaces in front. -/
def header_value (t : Bytes) : Bytes :=
  ((t.dropWhile (· != ch ':')).dropWhile (· == ch ':')).dropWhile (· == ch ' ')

theorem tolower_ne_zero : ∀ b : Byte, b ≠ 0 → tolower b ≠ 0 := forall_byte (by decide +kernel)

/-- The text in front of the first colon, in lower case. -/
def header_name (t : CString) : CString where
  bytes := (t.bytes.takeWhile (· != ch ':')).map tolower
  nulFree h := by
    obtain ⟨b, hb, hzero⟩ := List.mem_map.mp h
    refine tolower_ne_zero b ?_ hzero
    rintro rfl
    exact t.nulFree ((List.takeWhile_sublist _).mem hb)

/-- The name and the value of a line, if something is left for the value. -/
def header (t : CString) : Option (CString × CString) :=
  if ch ':' ∈ t.bytes ∧ header_value t.bytes ≠ [] then
    some (header_name t, CString.cut (header_value t.bytes))
  else
    none

/-- The value starts within the length that fits into an `int`. -/
def fits (t : CString) : Bool :=
  t.bytes.length - (header_value t.bytes).length < int_of_size t.bytes.length

/-- What a line does to the variables. -/
def store_header (parser : http_parser_t) (t : CString) : C http_parser_t :=
  match header t with
  | some (name, value) =>
    if fits t then httpp_setvar parser (some name) (some value) else return parser
  | none => return parser

/-! ## The loop over one line -/

section Loop

variable (pre : Bytes) (slen : Nat)

theorem header_key (key A B : Bytes) (n : Nat) (hkey : ch ':' ∉ key) :
    header_loop pre.length slen (key.length + n) A.length false (pre ++ (A ++ (key ++ B))) =
      header_loop pre.length slen n (A.length + key.length) false (pre ++ (A ++ (key ++ B))) := by
  induction key generalizing A with
  | nil => rw [List.length_nil, Nat.zero_add, Nat.add_zero]
  | cons c key ih =>
    rw [List.mem_cons, not_or] at hkey
    have hc : c ≠ ch ':' := fun heq => hkey.1 heq.symm
    have hnext := ih (A ++ [c]) hkey.2
    have htext : A ++ [c] ++ (key ++ B) = A ++ (c :: key ++ B) := by simp
    have hlen : (A ++ [c]).length = A.length + 1 := by simp
    have hsum : A.length + 1 + key.length = A.length + (c :: key).length := by
      rw [List.length_cons]
      omega
    have hfuel : (c :: key).length + n = (key.length + n) + 1 := by
      rw [List.length_cons]
      omega
    rw [htext, hlen, hsum] at hnext
    rw [hfuel, header_loop, List.cons_append, read_within, ok_bind, if_neg hc]
    exact hnext

theorem header_colons (m n : Nat) (A B : Bytes) (whitespace : Bool) :
    header_loop pre.length slen (m + n) A.length whitespace
      (pre ++ (A ++ (List.replicate m (ch ':') ++ B))) =
      header_loop pre.length slen n (A.length + m) (whitespace || decide (0 < m))
        (pre ++ (A ++ (List.replicate m 0 ++ B))) := by
  induction m generalizing A whitespace with
  | zero => simp
  | succ m ih =>
    have hnext := ih (A ++ [0]) true
    have htext (b c : Byte) :
        A ++ [b] ++ (List.replicate m c ++ B) = A ++ b :: (List.replicate m c ++ B) := by simp
    have hlen : (A ++ [0]).length = A.length + 1 := by simp
    have hsum : A.length + 1 + m = A.length + (m + 1) := by omega
    have hfuel : m + 1 + n = (m + n) + 1 := by omega
    rw [htext, htext, hlen, hsum] at hnext
    rw [hfuel, header_loop, List.replicate_succ, List.cons_append, read_within, ok_bind, if_pos rfl,
      store_within, ok_bind, hnext]
    simp [List.replicate_succ]

theorem skip_spaces_spec (m n : Nat) (A B : Bytes) (hB : n ≤ m ∨ ∃ c B', B = c :: B' ∧ c ≠ ch ' ') :
    skip_spaces (pre ++ (A ++ (List.replicate m (ch ' ') ++ B))) pre.length n A.length =
      .ok (A.length + min m n) := by
  induction n generalizing A m with
  | zero => simp [skip_spaces]
  | succ n ih =>
    cases m with
    | zero =>
      obtain ⟨c, B', rfl, hc⟩ := hB.resolve_left (by omega)
      rw [skip_spaces, List.replicate_zero, List.nil_append, read_within, ok_bind, if_neg hc]
      simp
    | succ m =>
      have hnext := ih m (A ++ [ch ' ']) (hB.imp_left fun h => by omega)
      have htext :
          A ++ [ch ' '] ++ (List.replicate m (ch ' ') ++ B) =
          A ++ ch ' ' :: (List.replicate m (ch ' ') ++ B) := by
        simp
      have hlen : (A ++ [ch ' ']).length = A.length + 1 := by simp
      rw [htext, hlen] at hnext
      rw [skip_spaces, List.replicate_succ, List.cons_append, read_within, ok_bind,
        if_pos rfl, hnext]
      congr 1
      omega

theorem lowercase_spec (key A B : Bytes) (fuel : Nat) (hkey : 0 ∉ key) (hfuel : key.length < fuel) :
    _lowercase (pre ++ (A ++ (key ++ 0 :: B))) (pre.length + A.length) fuel =
      .ok (pre ++ (A ++ (key.map tolower ++ 0 :: B))) := by
  induction key generalizing A fuel with
  | nil =>
    obtain ⟨fuel, rfl⟩ : ∃ f, fuel = f + 1 := ⟨fuel - 1, by simp at hfuel; omega⟩
    rw [_lowercase, List.nil_append, read_within, ok_bind, if_pos rfl]
    rfl
  | cons c key ih =>
    rw [List.length_cons] at hfuel
    obtain ⟨fuel, rfl⟩ : ∃ f, fuel = f + 1 := ⟨fuel - 1, by omega⟩
    rw [List.mem_cons, not_or] at hkey
    have hnext := ih (A ++ [tolower c]) fuel hkey.2 (by omega)
    have htext (l : Bytes) : A ++ [tolower c] ++ l = A ++ tolower c :: l := by simp
    have hlen : pre.length + (A ++ [tolower c]).length = pre.length + A.length + 1 := by
      simp [Nat.add_assoc]
    rw [htext, htext, hlen] at hnext
    rw [_lowercase, List.cons_append, read_within, ok_bind,
      if_neg fun heq => hkey.1 heq.symm, store_within, ok_bind]
    exact hnext

end Loop

/-- A line: its name, `m` colons, `k` spaces and its value. -/
structure Parts (t key : Bytes) (m k : Nat) (value : Bytes) : Prop where
  text : t = key ++ (List.replicate m (ch ':') ++ (List.replicate k (ch ' ') ++ value))
  name : ch ':' ∉ key
  alone : m = 0 → t = key
  colon : ∀ c B, List.replicate k (ch ' ') ++ value = c :: B → c ≠ ch ':'
  space : ∀ c B, value = c :: B → c ≠ ch ' '

theorem header_parts (t : Bytes) :
    ∃ m k, Parts t (t.takeWhile (· != ch ':')) m k (header_value t) := by
  obtain ⟨m, ht, hm⟩ := run_split (ch ':') t
  obtain ⟨k, hrest⟩ : ∃ k, (t.dropWhile (· != ch ':')).dropWhile (· == ch ':') =
      List.replicate k (ch ' ') ++ header_value t := ⟨_, front_run (ch ' ') _⟩
  refine ⟨m, k, ?_, fun h => absurd (List.mem_takeWhile_imp h) (by simp), ?_, ?_, ?_⟩
  · rw [← hrest]
    exact ht
  · intro hzero
    have hmem : ch ':' ∉ t := fun h => absurd (hm.mp h) (by omega)
    exact (List.takeWhile_eq_self_iff.mpr (all_ne hmem)).symm
  · intro c B hB
    simpa using head_dropWhile (hrest.trans hB)
  · intro c B hB
    simpa using head_dropWhile hB

section Parts

variable {t key value : Bytes} {m k : Nat} (pre rest : Bytes) {s : Nat}

theorem Parts.length (h : Parts t key m k value) :
    t.length = key.length + (m + (k + value.length)) := by
  conv_lhs => rw [h.text]
  simp

theorem Parts.colons (h : Parts t key m k value) (hlt : key.length < t.length) : m ≠ 0 := by
  intro hm
  have := congrArg List.length (h.alone hm)
  omega

theorem Parts.in_name (h : Parts t key m k value) (hs : s ≤ key.length) :
    header_loop pre.length s s 0 false (pre ++ (t ++ rest)) = .ok (pre ++ (t ++ rest), none) := by
  have hloop := header_key pre s (key.take s) [] (key.drop s ++ (List.replicate m (ch ':') ++
    (List.replicate k (ch ' ') ++ value)) ++ rest) 0 fun hmem => h.name (List.mem_of_mem_take hmem)
  have htext : [] ++ (key.take s ++ (key.drop s ++ (List.replicate m (ch ':') ++
      (List.replicate k (ch ' ') ++ value)) ++ rest)) = t ++ rest := by
    rw [List.nil_append, ← List.append_assoc, ← List.append_assoc, List.take_append_drop, ← h.text]
  rw [htext, List.length_take, Nat.min_eq_left hs, Nat.add_zero, List.length_nil] at hloop
  exact hloop

theorem Parts.behind_name (h : Parts t key m k value) (n : Nat) :
    header_loop pre.length s (key.length + n) 0 false (pre ++ (t ++ rest)) =
      header_loop pre.length s n key.length false (pre ++ (t ++ rest)) := by
  have hkeys :=
    header_key pre s key [] (List.replicate m (ch ':') ++ (List.replicate k (ch ' ') ++ value) ++
      rest) n h.name
  have htext : key ++ (List.replicate m (ch ':') ++ (List.replicate k (ch ' ') ++ value) ++ rest) =
      t ++ rest := by
    rw [← List.append_assoc, ← h.text]
  rw [List.nil_append, htext, List.length_nil, Nat.zero_add] at hkeys
  exact hkeys

theorem Parts.in_colons {j i : Nat} (h : Parts t key (j + i) k value) (hs : s = key.length + j) :
    header_loop pre.length s s 0 false (pre ++ (t ++ rest)) =
      .ok (pre ++ (key ++ (List.replicate j 0 ++
      (List.replicate i (ch ':') ++ (List.replicate k (ch ' ') ++ value) ++ rest))), none) := by
  have hcolons := header_colons pre s j 0 key (List.replicate i (ch ':') ++
    (List.replicate k (ch ' ') ++ value) ++ rest) false
  have htext : key ++ (List.replicate j (ch ':') ++ (List.replicate i (ch ':') ++
      (List.replicate k (ch ' ') ++ value) ++ rest)) = t ++ rest := by
    conv_rhs => rw [h.text, List.replicate_add]
    simp only [List.append_assoc]
  rw [htext, Nat.add_zero] at hcolons
  have hrun := h.behind_name pre rest (s := s) j
  rw [← hs] at hrun
  rw [hrun, hcolons]
  rfl

theorem Parts.behind_colons (h : Parts t key m k value) {n : Nat}
    (hs : s = key.length + (m + (n + 1))) (hle : s ≤ t.length) :
    header_loop pre.length s s 0 false (pre ++ (t ++ rest)) =
      .ok (pre ++ (key ++ (List.replicate m 0 ++ (List.replicate k (ch ' ') ++ (value ++ rest)))),
        if key.length + m + k < s then some (pre.length + (key.length + m + k)) else none) := by
  have hlen := h.length
  have hm : m ≠ 0 := h.colons (by omega)
  have hcolons :=
    header_colons pre s m (n + 1) key (List.replicate k (ch ' ') ++ value ++ rest) false
  have htext : key ++ (List.replicate m (ch ':') ++ (List.replicate k (ch ' ') ++ value ++ rest)) =
      t ++ rest := by
    conv_rhs => rw [h.text]
    simp only [List.append_assoc]
  rw [htext] at hcolons
  let A := key ++ List.replicate m (0 : Byte)
  have hA : key.length + m = A.length := by simp [A]
  have hdata (B : Bytes) : key ++ (List.replicate m 0 ++ B) = A ++ B := by simp [A]
  have hvalue : n + 1 ≤ k ∨ ∃ c B, value ++ rest = c :: B ∧ c ≠ ch ' ' := by
    by_cases hk : n + 1 ≤ k
    · exact .inl hk
    · right
      obtain ⟨c, B, hB⟩ := List.exists_cons_of_length_pos (l := value) (by omega)
      exact ⟨c, B ++ rest, by rw [hB, List.cons_append], h.space c B hB⟩
  have hskip := skip_spaces_spec pre k (n + 1) A (value ++ rest) hvalue
  obtain ⟨c, B, hB⟩ :=
    List.exists_cons_of_length_pos (l := List.replicate k (ch ' ') ++ value) (by simp; omega)
  have hread :
      read (pre ++ (A ++ (List.replicate k (ch ' ') ++ (value ++ rest)))) (pre.length + A.length) =
      .ok c := by
    rw [← List.append_assoc (List.replicate k (ch ' ')), hB, List.cons_append]
    exact read_within pre A (B ++ rest) c
  have hrun := h.behind_name pre rest (s := s) (m + (n + 1))
  have hws : (false || decide (0 < m)) = true := by
    rw [Bool.false_or, decide_eq_true (Nat.pos_of_ne_zero hm)]
  rw [← hs] at hrun
  rw [hrun, hcolons, List.append_assoc (List.replicate k (ch ' ')), hdata, hA, hws, header_loop,
    hread, ok_bind, if_neg (h.colon c B hB), if_pos rfl, hskip, ok_bind]
  by_cases hlt : A.length + k < s
  · rw [if_pos hlt, Nat.min_eq_left (by omega), if_pos hlt]
    rfl
  · rw [if_neg hlt, if_neg (by omega)]
    rfl

end Parts

/-- The loop finds the value, if it starts in the first `s` bytes. -/
theorem header_loop_spec (pre t rest : Bytes) {s : Nat} (hs : s ≤ t.length) :
    ∃ data, header_loop pre.length s s 0 false (pre ++ (t ++ rest)) =
        .ok (data, if t.length - (header_value t).length < s then
          some (pre.length + (t.length - (header_value t).length)) else none) ∧
      data.length = (pre ++ (t ++ rest)).length ∧ data.drop (pre.length + t.length) = rest ∧
      (t.length - (header_value t).length < s → ∃ mid,
        data = pre ++ (t.takeWhile (· != ch ':') ++ 0 :: (mid ++ (header_value t ++ rest))) ∧
          (t.takeWhile (· != ch ':')).length + 1 + mid.length =
          t.length - (header_value t).length) := by
  obtain ⟨m, k, h⟩ := header_parts t
  generalize t.takeWhile (· != ch ':') = key at *
  generalize header_value t = value at *
  have hlen := h.length
  have hstart : t.length - value.length = key.length + m + k := by omega
  have hafter (A : Bytes) (hA : A.length = t.length) :
      (pre ++ (A ++ rest)).drop (pre.length + t.length) = rest := by
    rw [← hA, ← List.length_append, ← List.append_assoc, List.drop_left]
  rw [hstart]
  by_cases h1 : s ≤ key.length
  · have hlate : ¬ key.length + m + k < s := by omega
    rw [if_neg hlate]
    exact ⟨_, h.in_name pre rest h1, rfl, hafter t rfl, fun hlt => absurd hlt hlate⟩
  by_cases h2 : s ≤ key.length + m
  · obtain ⟨j, hj⟩ : ∃ j, s = key.length + j := ⟨s - key.length, by omega⟩
    obtain ⟨i, rfl⟩ : ∃ i, m = j + i := ⟨m - j, by omega⟩
    have hlate : ¬ key.length + (j + i) + k < s := by omega
    rw [if_neg hlate]
    refine ⟨_, h.in_colons pre rest hj, ?_, ?_, fun hlt => absurd hlt hlate⟩
    · simp
      omega
    · have hdrop := hafter (key ++ (List.replicate j 0 ++ (List.replicate i (ch ':') ++
        (List.replicate k (ch ' ') ++ value)))) (by simp; omega)
      simpa only [List.append_assoc] using hdrop
  · obtain ⟨n, hn⟩ : ∃ n, s = key.length + (m + (n + 1)) := ⟨s - key.length - m - 1, by omega⟩
    obtain ⟨j, hj⟩ : ∃ j, m = j + 1 := ⟨m - 1, by have := h.colons (by omega); omega⟩
    refine ⟨_, h.behind_colons pre rest hn hs, ?_, ?_, fun _ => ?_⟩
    · simp
      omega
    · have hdrop :=
        hafter (key ++ (List.replicate m 0 ++ (List.replicate k (ch ' ') ++ value)))
          (by simp; omega)
      simpa only [List.append_assoc] using hdrop
    · refine ⟨List.replicate j 0 ++ List.replicate k (ch ' '), ?_, ?_⟩
      · simp [hj, List.replicate_succ]
      · simp
        omega

/-! ## One line -/

theorem colon_of_value {t : Bytes} (h : header_value t ≠ []) : ch ':' ∈ t := by
  by_contra hmem
  apply h
  unfold header_value
  rw [dropWhile_nil_iff.mpr hmem]
  rfl

theorem value_sublist (t : Bytes) : (header_value t).Sublist t :=
  ((List.dropWhile_sublist _).trans (List.dropWhile_sublist _)).trans (List.dropWhile_sublist _)

theorem cut_value (t : CString) :
    (CString.cut (header_value t.bytes)).bytes = header_value t.bytes := by
  let value : CString := ⟨header_value t.bytes, fun h => t.nulFree ((value_sublist t.bytes).mem h)⟩
  exact congrArg CString.bytes value.cut_bytes

theorem fits_iff (t : CString) :
    fits t = true ↔
      t.bytes.length - (header_value t.bytes).length < (int_of_size t.bytes.length).toNat := by
  have hle := (value_sublist t.bytes).length_le
  unfold fits
  rw [decide_eq_true_eq]
  omega

theorem header_strings (pre rest mid : Bytes) (t : CString)
    (hmid : (t.bytes.takeWhile (· != ch ':')).length + 1 + mid.length =
      t.bytes.length - (header_value t.bytes).length)
    {data : Bytes}
    (hdata : data =
      pre ++ ((header_name t).bytes ++ 0 :: (mid ++ (header_value t.bytes ++ 0 :: rest)))) :
    string_at data pre.length = .ok (header_name t) ∧
      string_at data (pre.length + (t.bytes.length - (header_value t.bytes).length)) =
        .ok (CString.cut (header_value t.bytes)) ∧
      data.drop (pre.length + t.bytes.length) = 0 :: rest := by
  have hle := (value_sublist t.bytes).length_le
  have hname : (header_name t).bytes.length = (t.bytes.takeWhile (· != ch ':')).length :=
    List.length_map _
  have hfront :
      data = (pre ++ (header_name t).bytes ++ 0 :: mid) ++ (header_value t.bytes ++ 0 :: rest) := by
    rw [hdata]
    simp
  have hlen : pre.length + (t.bytes.length - (header_value t.bytes).length) =
      (pre ++ (header_name t).bytes ++ 0 :: mid).length := by
    rw [List.length_append, List.length_append, List.length_cons, hname]
    omega
  have hdrop : data.drop (pre.length + (t.bytes.length - (header_value t.bytes).length)) =
      header_value t.bytes ++ 0 :: rest := by
    rw [hfront, hlen, List.drop_left]
  refine ⟨?_, ?_, ?_⟩
  · rw [hdata]
    exact string_at_eq (header_name t) List.drop_left
  · apply string_at_eq
    rw [cut_value]
    exact hdrop
  · have hbehind := drop_behind hdrop
    have hsum :
      pre.length + (t.bytes.length - (header_value t.bytes).length) +
      (header_value t.bytes).length =
        pre.length + t.bytes.length := by omega
    rw [hsum] at hbehind
    exact hbehind

theorem parse_header_spec (pre rest : Bytes) (t : CString) (parser : http_parser_t) :
    ∃ data, data.drop (pre.length + t.bytes.length) = 0 :: rest ∧
      parse_header (pre ++ (t.bytes ++ 0 :: rest)) pre.length parser = (do
        let parser ← store_header parser t
        return (data, parser)) := by
  have hslen :=
    int_strlen_eq
      (string_at_eq t (show (pre ++ (t.bytes ++ 0 :: rest)).drop pre.length =
      _ from List.drop_left))
  have hfits := fits_iff t
  have hint := int_of_size_le t.bytes.length
  unfold parse_header store_header
  rw [hslen, ok_bind]
  generalize int_of_size t.bytes.length = slen at *
  obtain ⟨data, hloop, hsize, hafter, hfound⟩ :=
    header_loop_spec pre t.bytes (0 :: rest) (s := slen.toNat) (by omega)
  rw [hloop, ok_bind]
  by_cases hlt : t.bytes.length - (header_value t.bytes).length < slen.toNat
  · obtain ⟨mid, hdata, hmid⟩ := hfound hlt
    have hvalue : header_value t.bytes ≠ [] := by
      rw [← List.length_pos_iff]
      omega
    have hheader : header t = some (header_name t, CString.cut (header_value t.bytes)) :=
      if_pos ⟨colon_of_value hvalue, hvalue⟩
    have hkey : 0 ∉ t.bytes.takeWhile (· != ch ':') :=
      fun h => t.nulFree ((List.takeWhile_sublist _).mem h)
    have hfuel : (t.bytes.takeWhile (· != ch ':')).length < data.length := by
      rw [hdata, List.length_append, List.length_append, List.length_cons]
      omega
    have hlower :=
      lowercase_spec pre (t.bytes.takeWhile (· != ch ':')) []
        (mid ++ (header_value t.bytes ++ 0 :: rest))
      data.length hkey hfuel
    rw [List.nil_append, List.nil_append, List.length_nil, Nat.add_zero, ← hdata] at hlower
    obtain ⟨hname, hcut, hbehind⟩ := header_strings pre rest mid t hmid rfl
    refine ⟨_, hbehind, ?_⟩
    change _lowercase data pre.length data.length =
      .ok (pre ++ ((header_name t).bytes ++ _)) at hlower
    rw [if_pos hlt, hheader]
    dsimp only
    rw [hlower, ok_bind, hname, ok_bind, hcut, ok_bind, if_pos (hfits.mpr hlt)]
  · refine ⟨data, hafter, ?_⟩
    have hnot : ¬ fits t = true := fun h => hlt (hfits.mp h)
    rw [if_neg hlt]
    cases header t with
    | none => rfl
    | some x =>
      simp only [if_neg hnot]
      rfl

/-! ## All lines -/

theorem Lined.congr {data data' : Bytes} {line : Nat → Option Nat} {k o : Nat} {ts : List CString}
    (h : Lined data line k o ts) (hsame : ∀ p ≥ o, data'.drop p = data.drop p) :
    Lined data' line k o ts := by
  induction ts generalizing k o with
  | nil => trivial
  | cons t ts ih =>
    obtain ⟨p, rest, hline, hp, hdata, hrest⟩ := h
    exact ⟨p, rest, hline, hp, (hsame p hp).trans hdata, ih hrest fun q hq => hsame q (by omega)⟩

/-- **Headers.** Every line is stored, in order. -/
theorem parse_headers_loop_spec {line : Nat → Option Nat} {ts : List CString}
    {data : Bytes} {k o : Nat} (h : Lined data line k o ts) (parser : http_parser_t) :
    parse_headers_loop line ts.length k data parser = ts.foldlM store_header parser := by
  induction ts generalizing data k o parser with
  | nil => rfl
  | cons t ts ih =>
    obtain ⟨p, rest, hline, -, hdata, hrest⟩ := h
    obtain ⟨hsplit, hp⟩ := take_of_drop hdata (by simp)
    obtain ⟨data1, hafter, hheader⟩ := parse_header_spec (data.take p) rest t parser
    rw [hp, ← hsplit] at hheader
    rw [hp] at hafter
    have hget : get_line line k = .ok p := by
      unfold get_line
      rw [hline]
      rfl
    have hlined : Lined data1 line (k + 1) (p + t.bytes.length + 1) ts := by
      apply hrest.congr
      intro q hq
      have hbehind : data.drop (p + t.bytes.length) = 0 :: rest := drop_behind hdata
      obtain ⟨d, rfl⟩ : ∃ d, q = p + t.bytes.length + d := ⟨q - (p + t.bytes.length), by omega⟩
      have hdrop (u : Bytes) :
          u.drop (p + t.bytes.length + d) = (u.drop (p + t.bytes.length)).drop d :=
        List.drop_drop.symm
      rw [hdrop, hdrop, hafter, hbehind]
    rw [List.length_cons, parse_headers_loop, hget, ok_bind, hheader, List.foldlM_cons, bind_assoc]
    refine bind_congr fun parser1 => ?_
    exact ih hlined parser1

end Httpp
