import IcecastCommon.Lib.Bytes
import Mathlib.Data.List.TakeWhile
import Mathlib.Data.Nat.Digits.Lemmas

/-!
# Numbers in strings

What `sscanf` reads for `%llx`, what `snprintf` writes for `%lx`, and what `atoi` reads.
-/

namespace Lib

/-- The value of a hexadecimal digit. -/
def hexVal (b : Byte) : Option Nat :=
  if 48 ≤ b ∧ b ≤ 57 then some (b.toNat - 48)
  else if 97 ≤ b ∧ b ≤ 102 then some (b.toNat - 87)
  else if 65 ≤ b ∧ b ≤ 70 then some (b.toNat - 55)
  else none

def isxdigit (b : Byte) : Bool := (hexVal b).isSome

def isspace (b : Byte) : Bool := b = 32 ∨ 9 ≤ b ∧ b ≤ 13

/-- The value of a string of digits. -/
def hexNat (digits : Bytes) : Nat := digits.foldl (fun v b => 16 * v + (hexVal b).getD 0) 0

/-- `sscanf(s, "%llx", &n)`: white space, a sign and `0x` may come first. -/
def sscanf_llx (s : Bytes) : Option Nat :=
  let s := s.dropWhile isspace
  let negative := s.head? = some (ch '-')
  let s := if s.head? = some (ch '-') ∨ s.head? = some (ch '+') then s.tail else s
  let s := if s.head? = some (ch '0') ∧
    (s[1]? = some (ch 'x') ∨ s[1]? = some (ch 'X')) then s.drop 2 else s
  let digits := s.takeWhile isxdigit
  if digits = [] then none
  else if 2 ^ 64 ≤ hexNat digits then some (2 ^ 64 - 1)
  else if negative then some ((2 ^ 64 - hexNat digits) % 2 ^ 64)
  else some (hexNat digits)

theorem sscanf_llx_lt {s : Bytes} {n : Nat} (h : sscanf_llx s = some n) : n < 2 ^ 64 := by
  unfold sscanf_llx at h
  dsimp only at h
  split_ifs at h with _ hbig
  all_goals
    cases h
    omega

def hexDigit (d : Nat) : Byte := if d < 10 then UInt8.ofNat (48 + d) else UInt8.ofNat (87 + d)

/-- `%lx` -/
def hex (n : Nat) : Bytes := if n = 0 then [ch '0'] else ((Nat.digits 16 n).map hexDigit).reverse

/-! ## Digits only -/

/-- A fact about all bytes can be decided. -/
theorem forall_byte {P : Byte → Prop} (h : ∀ i : Fin 256, P (UInt8.ofNat i)) (b : Byte) : P b := by
  have hb := h ⟨b.toNat, b.toNat_lt⟩
  simpa using hb

theorem isxdigit_not_space : ∀ b, isxdigit b → ¬ isspace b := forall_byte (by decide +kernel)

theorem isxdigit_ne {b : Byte} (h : isxdigit b) {c : Byte} (hc : ¬ isxdigit c) : b ≠ c := by
  rintro rfl
  exact hc h

/-- A string of digits is read as its value. -/
theorem sscanf_llx_digits {digits : Bytes} (hne : digits ≠ []) (hx : ∀ b ∈ digits, isxdigit b)
    (hlt : hexNat digits < 2 ^ 64) : sscanf_llx digits = some (hexNat digits) := by
  obtain ⟨b, rest, rfl⟩ := List.exists_cons_of_ne_nil hne
  have hb : isxdigit b := hx b (by simp)
  have hspace : (b :: rest).dropWhile isspace = b :: rest := by
    rw [List.dropWhile_cons_of_neg (isxdigit_not_space b hb)]
  have hminus : b ≠ ch '-' := isxdigit_ne hb (by decide)
  have hplus : b ≠ ch '+' := isxdigit_ne hb (by decide)
  have hzx : ∀ c, ¬ isxdigit c → rest[0]? ≠ some c := by
    intro c hc h
    exact isxdigit_ne (hx c (List.mem_cons_of_mem _ (List.mem_of_getElem? h))) hc rfl
  have hx' : rest[0]? ≠ some (ch 'x') := hzx _ (by decide)
  have hX' : rest[0]? ≠ some (ch 'X') := hzx _ (by decide)
  have hlt' : ¬ 2 ^ 64 ≤ hexNat (b :: rest) := by omega
  unfold sscanf_llx
  simp only [hspace, List.head?_cons, Option.some.injEq, hminus, hplus, or_self, if_false,
    List.getElem?_cons_succ, hx', hX', and_false, List.takeWhile_eq_self_iff.mpr hx, hlt']
  simp

/-! ## Writing and reading -/

theorem hexVal_hexDigit : ∀ {d : Nat}, d < 16 → hexVal (hexDigit d) = some d := by
  intro d hd
  have h : ∀ d : Fin 16, hexVal (hexDigit d) = some (d : Nat) := by decide
  exact h ⟨d, hd⟩

theorem hex_ne_nil (n : Nat) : hex n ≠ [] := by
  unfold hex
  split_ifs with hn
  · simp
  · simpa [Nat.digits_eq_nil_iff_eq_zero] using hn

theorem hex_length_le {n k : Nat} (hk : 0 < k) (h : n < 16 ^ k) : (hex n).length ≤ k := by
  unfold hex
  split_ifs
  · exact hk
  · rw [List.length_reverse, List.length_map]
    exact (Nat.digits_length_le_iff (by decide) n).mpr h

theorem hex_digits (n : Nat) : ∀ b ∈ hex n, isxdigit b := by
  intro b hb
  unfold hex at hb
  split_ifs at hb
  · rw [List.mem_singleton] at hb
    subst hb
    decide
  · obtain ⟨d, hd, rfl⟩ := List.mem_map.mp (List.mem_reverse.mp hb)
    rw [isxdigit, hexVal_hexDigit (Nat.digits_lt_base (by decide) hd)]
    rfl

theorem hexNat_append (u : Bytes) (b : Byte) :
    hexNat (u ++ [b]) = 16 * hexNat u + (hexVal b).getD 0 := by
  simp [hexNat]

/-- What is written for a number is read as the number. -/
theorem hexNat_hex (n : Nat) : hexNat (hex n) = n := by
  have hdigits : ∀ l : List Nat, (∀ d ∈ l, d < 16) →
      hexNat ((l.map hexDigit).reverse) = Nat.ofDigits 16 l := by
    intro l hl
    induction l with
    | nil => rfl
    | cons d l ih =>
      have hd : hexVal (hexDigit d) = some d := hexVal_hexDigit (hl d (by simp))
      rw [List.map_cons, List.reverse_cons, hexNat_append,
        ih fun e he => hl e (List.mem_cons_of_mem d he), hd, Nat.ofDigits_cons]
      simp [Nat.add_comm]
  unfold hex
  split_ifs with hn
  · rw [hn]
    rfl
  · rw [hdigits _ fun d hd => Nat.digits_lt_base (by decide) hd, Nat.ofDigits_digits]

/-! ## Decimal numbers -/

def isdigit (b : Byte) : Bool := 48 ≤ b ∧ b ≤ 57

def decNat (digits : Bytes) : Nat := digits.foldl (fun v b => 10 * v + (b.toNat - 48)) 0

/-- `strtol(s, NULL, 10)`: white space and a sign may come first. The result stays in a `long`. -/
def strtol (s : Bytes) : Int :=
  let s := s.dropWhile isspace
  let negative := s.head? = some (ch '-')
  let s := if s.head? = some (ch '-') ∨ s.head? = some (ch '+') then s.tail else s
  let n := decNat (s.takeWhile isdigit)
  if negative then max (-n : Int) (-2 ^ 63) else min (n : Int) (2 ^ 63 - 1)

/-- `%lu` -/
def decimal (n : Nat) : Bytes :=
  if n = 0 then [ch '0'] else ((Nat.digits 10 n).map fun d => UInt8.ofNat (48 + d)).reverse

/-- `%li` -/
def signed_decimal (n : Int) : Bytes :=
  if n < 0 then ch '-' :: decimal n.natAbs else decimal n.natAbs

/-- `(int)strtol(s, NULL, 10)` -/
def atoi (s : Bytes) : Int := (strtol s).bmod (2 ^ 32)

theorem isdigit_digit :
    ∀ {d : Nat}, d < 10 → isdigit (UInt8.ofNat (48 + d)) ∧
      (UInt8.ofNat (48 + d)).toNat - 48 = d := by
  intro d hd
  have h : ∀ d : Fin 10, isdigit (UInt8.ofNat (48 + d)) ∧
      (UInt8.ofNat (48 + d)).toNat - 48 = (d : Nat) := by decide
  exact h ⟨d, hd⟩

theorem decimal_digits (n : Nat) : ∀ b ∈ decimal n, isdigit b := by
  intro b hb
  unfold decimal at hb
  split_ifs at hb
  · rw [List.mem_singleton] at hb
    subst hb
    decide
  · obtain ⟨d, hd, rfl⟩ := List.mem_map.mp (List.mem_reverse.mp hb)
    exact (isdigit_digit (Nat.digits_lt_base (by decide) hd)).1

/-- Nothing but zero begins with a zero. -/
theorem decimal_head {n : Nat} (hn : 0 < n) : ∃ b rest, decimal n = b :: rest ∧ b ≠ ch '0' := by
  have hne : Nat.digits 10 n ≠ [] := Nat.digits_ne_nil_iff_ne_zero.mpr hn.ne'
  obtain ⟨l, d, hl⟩ := (List.eq_nil_or_concat' (Nat.digits 10 n)).resolve_left hne
  have hlast : d ≠ 0 := by
    have hlast := Nat.getLast_digit_ne_zero 10 hn.ne'
    simpa [hl] using hlast
  have hd : d < 10 := Nat.digits_lt_base (m := n) (by decide) (by rw [hl]; simp)
  refine ⟨UInt8.ofNat (48 + d), (l.map fun d => UInt8.ofNat (48 + d)).reverse, ?_, ?_⟩
  · rw [decimal, if_neg hn.ne', hl]
    simp
  · intro hzero
    have hval := (isdigit_digit hd).2
    rw [hzero] at hval
    exact hlast hval.symm

/-- What is written for a number is read as the number. -/
theorem decNat_decimal (n : Nat) : decNat (decimal n) = n := by
  have hdigits : ∀ l : List Nat, (∀ d ∈ l, d < 10) →
      decNat ((l.map fun d => UInt8.ofNat (48 + d)).reverse) = Nat.ofDigits 10 l := by
    intro l hl
    induction l with
    | nil => rfl
    | cons d l ih =>
      have hd := (isdigit_digit (hl d (by simp))).2
      have hstep :
        decNat ((l.map fun d => UInt8.ofNat (48 + d)).reverse ++ [UInt8.ofNat (48 + d)]) =
          10 * decNat ((l.map fun d => UInt8.ofNat (48 + d)).reverse) +
            ((UInt8.ofNat (48 + d)).toNat - 48) := by
        simp [decNat]
      rw [List.map_cons, List.reverse_cons, hstep,
        ih fun e he => hl e (List.mem_cons_of_mem d he), hd, Nat.ofDigits_cons]
      simp [Nat.add_comm]
  unfold decimal
  split_ifs with hn
  · rw [hn]
    rfl
  · rw [hdigits _ fun d hd => Nat.digits_lt_base (by decide) hd, Nat.ofDigits_digits]

theorem isdigit_plain : ∀ b, isdigit b → ¬ isspace b ∧ b ≠ ch '-' ∧ b ≠ ch '+' :=
  forall_byte (by decide +kernel)

/-- The number at the front of a text. -/
theorem atoi_decimal {n : Nat} (hn : 0 < n) {rest : Bytes}
    (hrest : rest.head?.any isdigit = false) :
    atoi (decimal n ++ rest) = (min (n : Int) (2 ^ 63 - 1)).bmod (2 ^ 32) := by
  obtain ⟨b, tail, hdecimal, -⟩ := decimal_head hn
  have hall := decimal_digits n
  have hvalue := decNat_decimal n
  rw [hdecimal] at hall hvalue ⊢
  obtain ⟨hspace, hminus, hplus⟩ := isdigit_plain b (hall b (by simp))
  have hnone : rest.takeWhile isdigit = [] := by
    cases rest with
    | nil => rfl
    | cons c rest => exact List.takeWhile_cons_of_neg (by simpa using hrest)
  have htake : (b :: tail ++ rest).takeWhile isdigit = b :: tail := by
    rw [List.takeWhile_append_of_pos hall, hnone, List.append_nil]
  unfold atoi strtol
  rw [List.cons_append, List.dropWhile_cons_of_neg hspace]
  simp only [List.head?_cons, Option.some.injEq, hminus, hplus, or_self, if_false]
  rw [← List.cons_append, htake, hvalue]

end Lib
