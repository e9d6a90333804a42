import IcecastCommon.Lib.Hex
import IcecastCommon.Lib.Run
import IcecastCommon.Lib.Strings
import IcecastCommon.Log.Code

/-!
# The formatter of `log/log.c`

`__vsnprintf` writes into the `size` bytes at `str`, and a store anywhere else is a fault. `long`,
`size_t` and pointers have 64 bits, `char` is signed, and the arithmetic of `int` wraps around.
-/

namespace Log

open Lib

/-! ## Arguments -/

/-- An argument, as `va_arg` reads it for each type that a directive asks for. `long` also stands
for the other types of 64 bits, and a string is the memory from its pointer on. -/
structure va_arg where
  int : BitVec 32
  long : BitVec 64
  pointer : BitVec 64
  string : Option Bytes

/-- The value of an `int` after a computation. -/
def to_int (n : Int) : Int := n.bmod (2 ^ 32)

def signed_char (c : Byte) : Int := if c < 128 then c.toNat else c.toNat - 256

def vsnprintf_is_print (c : Byte) (allow_space : Bool) : Bool :=
  ¬ ((signed_char c ≤ (ch '"').toNat ∨ c = ch '`' ∨ c = ch '\\') ∧ ¬ (allow_space ∧ c = ch ' '))

/-- The loop over the string at `str`. -/
def strlen_loop (allow_space : Bool) : Bytes → Nat → C Nat
  | [], _ => throw .bounds
  | c :: str, ret =>
    if c = 0 then return ret
    else if vsnprintf_is_print c allow_space then strlen_loop allow_space str (ret + 1)
    else strlen_loop allow_space str (ret + 4)

def vsnprintf_strlen (str : Option Bytes) (is_alt allow_space : Bool) : C Nat := do
  match str with
  | none => return if is_alt then (ascii "-").length else (ascii "(null)").length
  | some str =>
    let ret ← strlen_loop allow_space str 0
    return if is_alt then ret + 2 else ret

/-! ## The state of the loop -/

/-- The variables of `__vsnprintf`, with the buffer in `line`. The first `ap` arguments have been
read. -/
structure vsnprintf_t where
  line : Bytes
  str : Nat
  size : Nat
  ap : Nat
  in_block : Bool
  block_size : Int
  block_len : Int
  block_space : Bool
  block_alt : Bool

namespace vsnprintf_t

/-- `*(str++) = c` -/
def push (s : vsnprintf_t) (c : Byte) : C vsnprintf_t :=
  return { s with line := ← store s.line s.str c, str := s.str + 1 }

/-- `size -= n; block_len -= n;` -/
def count (s : vsnprintf_t) (n : Nat) : vsnprintf_t :=
  { s with size := size_sub s.size n, block_len := to_int (s.block_len - n) }

/-- A byte inside a block, if there is room for it. -/
def put (s : vsnprintf_t) (c : Byte) : C vsnprintf_t := do
  if s.size ≠ 0 ∧ s.block_len ≠ 0 then return (← s.push c).count 1 else return s

/-- The quotes of `%#H`. -/
def quote (s : vsnprintf_t) : C vsnprintf_t := if s.block_alt then s.put (ch '"') else return s

/-- `block_len`, which is the length of the whole argument if there is no width. -/
def width (s : vsnprintf_t) (arg : Option Bytes) : C Int := do
  if s.block_len = 0 then return int_of_size (← vsnprintf_strlen arg s.block_alt s.block_space)
  else return s.block_len

end vsnprintf_t

open vsnprintf_t

/-- One byte of an argument of `%H`. -/
def escape (s : vsnprintf_t) (c : Byte) : C vsnprintf_t := do
  if vsnprintf_is_print c s.block_space then s.push c
  else if s.size < 4 ∨ s.block_len < 4 then s.push (ch '.')
  else
    let s ← s.push (ch '\\')
    let s ← s.push (ch 'x')
    let s ← s.push (hexDigit (c.toNat % 16))
    let s ← s.push (hexDigit (c.toNat / 16))
    return s.count 3

/-- The loops over the argument, where `copy` stores one byte of it. -/
def arg_loop (copy : vsnprintf_t → Byte → C vsnprintf_t) : Bytes → vsnprintf_t → C vsnprintf_t
  | [], _ => throw .bounds
  | c :: arg, s => do
    if c ≠ 0 ∧ s.block_len ≠ 0 ∧ s.size ≠ 0 then
      arg_loop copy arg ((← copy s c).count 1)
    else
      return s

/-- The end of `%H`. -/
def print_H (s : vsnprintf_t) (arg : Option Bytes) : C vsnprintf_t := do
  match arg with
  | none => s.put (ch '-')
  | some arg =>
    let s ← s.quote
    let s ← arg_loop escape arg s
    s.quote

/-- The branch of `s` and `H`, where the others go on with the text of their argument. -/
def print_arg (s : vsnprintf_t) (format : Byte) (arg : Option Bytes) : C vsnprintf_t := do
  let s := if format ≠ ch 'H' then { s with block_alt := false } else s
  let arg := if arg = none ∧ !s.block_alt then some (ascii "(null)" ++ [0]) else arg
  -- The block ends here, and what follows does not ask for it.
  let s := { s with block_len := ← s.width arg, in_block := false }
  if format = ch 'H' then print_H s arg
  else
    match arg with
    | none => throw .null
    | some arg => arg_loop push arg s

/-- The text in `buf` of the branch of `d`, `i` and `u`, and whether it takes an argument. -/
def number_text (format : Byte) (block_size : Int) (arg : va_arg) : Bytes × Bool :=
  if block_size = 0 then
    (if format = ch 'u' then decimal arg.int.toNat else signed_decimal arg.int.toInt, true)
  else if block_size = 1 ∨ block_size = 2 ∨ block_size = (ch 'z').toNat then
    (if format = ch 'u' then decimal arg.long.toNat else signed_decimal arg.long.toInt, true)
  else (ascii "<<<invalid>>>", false)

/-- The text in `buf` of the branch of `p`. -/
def pointer_text (arg : va_arg) : Bytes :=
  if arg.pointer = 0 then ascii "(nil)" else ascii "0x" ++ Lib.hex arg.pointer.toNat

/-- One byte of the format inside a block, digits apart. -/
def directive (ap : Nat → va_arg) (s : vsnprintf_t) (format : Byte) : C vsnprintf_t := do
  if format = ch 'l' then return { s with block_size := to_int (s.block_size + 1) }
  else if format = ch 'z' then return { s with block_size := (ch 'z').toNat }
  else if format = ch '.' then return s
  else if format = ch '*' then return { s with block_len := (ap s.ap).int.toInt, ap := s.ap + 1 }
  else if format = ch ' ' then return { s with block_space := true }
  else if format = ch '#' then return { s with block_alt := true }
  else if format = ch 'p' then
    print_arg { s with ap := s.ap + 1 } format (some (pointer_text (ap s.ap) ++ [0]))
  else if format = ch 'd' ∨ format = ch 'i' ∨ format = ch 'u' then
    let (buf, taken) := number_text format s.block_size (ap s.ap)
    print_arg { s with ap := if taken then s.ap + 1 else s.ap } format (some (buf ++ [0]))
  else if format = ch 's' ∨ format = ch 'H' then
    print_arg { s with ap := s.ap + 1 } format (ap s.ap).string
  else return s

/-- The loop over the format. A round takes one byte of it, or all digits of a number. -/
def vsnprintf_loop (ap : Nat → va_arg) : Nat → Bytes → vsnprintf_t → C vsnprintf_t
  | 0, _, _ => throw .endless
  | _ + 1, [], _ => throw .bounds
  | fuel + 1, c :: format, s => do
    if c = 0 ∨ s.size = 0 then return s
    if !s.in_block then
      if c = ch '%' then
        vsnprintf_loop ap fuel format
          { s with
            in_block := true, block_size := 0, block_len := 0, block_space := false
            block_alt := false }
      else
        let s ← s.push c
        vsnprintf_loop ap fuel format { s with size := size_sub s.size 1 }
    else if ch '1' ≤ c ∧ c ≤ ch '9' then
      vsnprintf_loop ap fuel ((c :: format).dropWhile isdigit) { s with
        block_len := atoi (← cstring (c :: format)) }
    else vsnprintf_loop ap fuel format (← directive ap s c)

def vsnprintf (str : Bytes) (size : Nat) (format : CString) (ap : Nat → va_arg) : C Bytes := do
  let s ← vsnprintf_loop ap format.block.length format.block
    { line := str, str := 0, size, ap := 0, in_block := false, block_size := 0, block_len := 0,
      block_space := false, block_alt := false }
  store s.line (if s.size = 0 then (s.str : Int) - 1 else s.str) 0

/-! ## Room in the buffer -/

/-- The buffer has `n` bytes, and the last `ahead` of those that are stored are not counted yet. -/
structure Room (n ahead : Nat) (s : vsnprintf_t) : Prop where
  line : s.line.length = n
  size : s.str + s.size = n + ahead
  fits : ahead ≤ s.size

section Room

variable {n ahead : Nat} {s : vsnprintf_t}

theorem push_room (h : Room n ahead s) (hsize : ahead < s.size) (c : Byte) :
    Succeeds (s.push c) fun s' => Room n (ahead + 1) s' ∧ s'.size = s.size := by
  have hstr : s.str < s.line.length := by
    have := h.size
    have := h.line
    omega
  unfold vsnprintf_t.push
  rw [store_eq hstr, ok_bind]
  refine succeeds_ok ⟨⟨?_, ?_, hsize⟩, rfl⟩
  · rw [List.length_set, h.line]
  · show s.str + 1 + s.size = n + (ahead + 1)
    rw [← Nat.add_assoc, ← h.size, Nat.add_right_comm]

theorem push_one (h : Room n 0 s) (hsize : 0 < s.size) (c : Byte) :
    Succeeds (s.push c) (Room n 1) := by
  obtain ⟨s', hs', h', -⟩ := push_room h hsize c
  exact ⟨s', hs', h'⟩

theorem count_room {m : Nat} (h : Room n (ahead + m) s) : Room n ahead (s.count m) := by
  have hsub : (s.count m).size = s.size - m := size_sub_of_le (le_of_add_le_right h.fits)
  have hfits := h.fits
  have hsize := h.size
  refine ⟨h.line, ?_, ?_⟩
  · rw [hsub]
    show s.str + (s.size - m) = n + ahead
    omega
  · rw [hsub]
    omega

theorem put_room (h : Room n 0 s) (c : Byte) : Succeeds (s.put c) (Room n 0) := by
  unfold vsnprintf_t.put
  split_ifs with hput
  · refine (push_room h (Nat.pos_of_ne_zero hput.1) c).bind fun s' hs' => ?_
    exact succeeds_ok (count_room hs'.1)
  · exact succeeds_ok h

/-- Every way to store a byte of the argument stores at least the one that the loop counts. -/
theorem escape_room (h : Room n 0 s) (hsize : 0 < s.size) (c : Byte) :
    Succeeds (escape s c) (Room n 1) := by
  unfold escape
  split_ifs with hprint hshort
  · exact push_one h hsize c
  · exact push_one h hsize (ch '.')
  · have hroom : 4 ≤ s.size := by omega
    refine (push_room h hsize _).bind fun s1 ⟨h1, hsize1⟩ => ?_
    refine (push_room h1 (by omega) _).bind fun s2 ⟨h2, hsize2⟩ => ?_
    refine (push_room h2 (by omega) _).bind fun s3 ⟨h3, hsize3⟩ => ?_
    refine (push_room h3 (by omega) _).bind fun s4 ⟨h4, _⟩ => ?_
    exact succeeds_ok (count_room h4)

theorem arg_loop_room {copy : vsnprintf_t → Byte → C vsnprintf_t} {arg : Bytes}
    (hcopy : ∀ s c, Room n 0 s → 0 < s.size → Succeeds (copy s c) (Room n 1)) (harg : 0 ∈ arg)
    (h : Room n 0 s) :
    Succeeds (arg_loop copy arg s) (Room n 0) := by
  induction arg generalizing s with
  | nil => exact absurd harg List.not_mem_nil
  | cons c arg ih =>
    unfold arg_loop
    split_ifs with hgo
    · refine (hcopy s c h (Nat.pos_of_ne_zero hgo.2.2)).bind fun s' h' => ih ?_ (count_room h')
      exact (List.mem_cons.mp harg).resolve_left (Ne.symm hgo.1)
    · exact succeeds_ok h

theorem print_H_room {arg : Option Bytes} (harg : ∀ block, arg = some block → 0 ∈ block)
    (h : Room n 0 s) :
    Succeeds (print_H s arg) (Room n 0) := by
  have hquote {s : vsnprintf_t} (h : Room n 0 s) : Succeeds s.quote (Room n 0) := by
    unfold vsnprintf_t.quote
    split_ifs
    · exact put_room h _
    · exact succeeds_ok h
  match arg with
  | none => exact put_room h _
  | some arg =>
    refine (hquote h).bind fun s1 h1 => ?_
    exact (arg_loop_room (fun _ c hs hsize => escape_room hs hsize c) (harg arg rfl) h1).bind
      fun s2 h2 => hquote h2

theorem strlen_loop_succeeds {allow_space : Bool} {str : Bytes} (hstr : 0 ∈ str) (ret : Nat) :
    Succeeds (strlen_loop allow_space str ret) fun _ => True := by
  induction str generalizing ret with
  | nil => exact absurd hstr List.not_mem_nil
  | cons c str ih =>
    unfold strlen_loop
    split_ifs with hc
    · exact succeeds_ok trivial
    all_goals exact ih ((List.mem_cons.mp hstr).resolve_left (Ne.symm hc)) _

theorem strlen_succeeds {arg : Option Bytes} (harg : ∀ block, arg = some block → 0 ∈ block)
    (is_alt allow_space : Bool) :
    Succeeds (vsnprintf_strlen arg is_alt allow_space) fun _ => True := by
  match arg with
  | none => exact succeeds_ok trivial
  | some arg => exact (strlen_loop_succeeds (harg arg rfl) 0).bind fun ret _ => succeeds_ok trivial

theorem width_succeeds {arg : Option Bytes} (harg : ∀ block, arg = some block → 0 ∈ block) :
    Succeeds (s.width arg) fun _ => True := by
  unfold vsnprintf_t.width
  split_ifs
  · exact (strlen_succeeds harg s.block_alt s.block_space).bind fun len _ => succeeds_ok trivial
  · exact succeeds_ok trivial

theorem print_arg_room {arg : Option Bytes} (harg : ∀ block, arg = some block → 0 ∈ block)
    (h : Room n 0 s) (format : Byte) : Succeeds (print_arg s format arg) (Room n 0) := by
  unfold print_arg
  extract_lets s1 arg1
  have h1 : Room n 0 s1 := by
    unfold s1
    split_ifs
    · exact ⟨h.line, h.size, h.fits⟩
    · exact h
  have harg1 : ∀ block, arg1 = some block → 0 ∈ block := by
    unfold arg1
    split_ifs
    · rintro _ ⟨⟩
      decide
    · exact harg
  -- Only `%#H` keeps a null pointer.
  have hsome : format ≠ ch 'H' → arg1 ≠ none := by
    intro hH
    have halt : s1.block_alt = false := by
      unfold s1
      rw [if_pos hH]
    unfold arg1
    split_ifs with hnull
    · exact Option.some_ne_none _
    · exact fun hnone => hnull ⟨hnone, by rw [halt]; rfl⟩
  clear_value s1 arg1
  refine (width_succeeds harg1).bind fun len _ => ?_
  extract_lets s2
  have h2 : Room n 0 s2 := ⟨h1.line, h1.size, h1.fits⟩
  split_ifs with hH
  · exact print_H_room harg1 h2
  · match arg1 with
    | none => exact absurd rfl (hsome hH)
    | some arg => exact arg_loop_room (fun _ c hs hsize => push_one hs hsize c) (harg1 arg rfl) h2

/-- What a byte of a directive does: it is remembered, or an argument is printed. -/
theorem directive_cases (ap : Nat → va_arg) (s : vsnprintf_t) (format : Byte) :
    (∃ s', directive ap s format = .ok s' ∧ s'.line = s.line ∧ s'.str = s.str ∧ s'.size = s.size ∧
      (s'.block_len = s.block_len ∧ s'.ap = s.ap ∨ s'.block_len = (ap s.ap).int.toInt ∧
      s'.ap = s.ap + 1)) ∨
    (∃ i text, (i = s.ap ∨ i = s.ap + 1) ∧
      (text = pointer_text (ap s.ap) ∨ text = (number_text format s.block_size (ap s.ap)).1) ∧
      directive ap s format = print_arg { s with ap := i } format (some (text ++ [0]))) ∨
    directive ap s format = print_arg { s with ap := s.ap + 1 } format (ap s.ap).string := by
  unfold directive
  by_cases hl : format = ch 'l'
  · exact .inl ⟨_, if_pos hl, rfl, rfl, rfl, .inl ⟨rfl, rfl⟩⟩
  rw [if_neg hl]
  by_cases hz : format = ch 'z'
  · exact .inl ⟨_, if_pos hz, rfl, rfl, rfl, .inl ⟨rfl, rfl⟩⟩
  rw [if_neg hz]
  by_cases hdot : format = ch '.'
  · exact .inl ⟨_, if_pos hdot, rfl, rfl, rfl, .inl ⟨rfl, rfl⟩⟩
  rw [if_neg hdot]
  by_cases hstar : format = ch '*'
  · exact .inl ⟨_, if_pos hstar, rfl, rfl, rfl, .inr ⟨rfl, rfl⟩⟩
  rw [if_neg hstar]
  by_cases hspace : format = ch ' '
  · exact .inl ⟨_, if_pos hspace, rfl, rfl, rfl, .inl ⟨rfl, rfl⟩⟩
  rw [if_neg hspace]
  by_cases halt : format = ch '#'
  · exact .inl ⟨_, if_pos halt, rfl, rfl, rfl, .inl ⟨rfl, rfl⟩⟩
  rw [if_neg halt]
  by_cases hp : format = ch 'p'
  · exact .inr (.inl ⟨_, _, .inr rfl, .inl rfl, if_pos hp⟩)
  rw [if_neg hp]
  by_cases hnumber : format = ch 'd' ∨ format = ch 'i' ∨ format = ch 'u'
  · have hnext (takes : Bool) : (if takes then s.ap + 1 else s.ap) = s.ap ∨
        (if takes then s.ap + 1 else s.ap) = s.ap + 1 := by
      cases takes with
      | true => exact .inr rfl
      | false => exact .inl rfl
    exact .inr (.inl ⟨_, _, hnext _, .inr rfl, if_pos hnumber⟩)
  rw [if_neg hnumber]
  by_cases hs : format = ch 's' ∨ format = ch 'H'
  · exact .inr (.inr (if_pos hs))
  · exact .inl ⟨s, if_neg hs, rfl, rfl, rfl, .inl ⟨rfl, rfl⟩⟩

theorem directive_room {ap : Nat → va_arg} (hap : ∀ i block, (ap i).string = some block → 0 ∈ block)
    (h : Room n 0 s) (format : Byte) : Succeeds (directive ap s format) (Room n 0) := by
  rcases directive_cases ap s format with ⟨s', hrun, hline, hstr, hsize, -⟩ |
    ⟨i, text, -, -, hrun⟩ | hrun
  · exact ⟨s', hrun, hline ▸ h.line, by rw [hstr, hsize, h.size], Nat.zero_le _⟩
  · have htext : ∀ block, some (text ++ [0]) = some block → 0 ∈ block := by
      rintro _ ⟨⟩
      simp
    have hroom : Room n 0 { s with ap := i } := ⟨h.line, h.size, h.fits⟩
    rw [hrun]
    exact print_arg_room htext hroom format
  · have hroom : Room n 0 { s with ap := s.ap + 1 } := ⟨h.line, h.size, h.fits⟩
    rw [hrun]
    exact print_arg_room (hap _) hroom format

/-- The number at the front of the format ends before the format does. -/
theorem digits_rest {format : Bytes} {c : Byte} (hc : ch '1' ≤ c ∧ c ≤ ch '9') (hnul : 0 ∈ format) :
    0 ∈ (c :: format).dropWhile isdigit ∧
      ((c :: format).dropWhile isdigit).length ≤ format.length := by
  have hdigit : isdigit c = true := by
    unfold isdigit
    have h0 : (48 : Byte) ≤ ch '1' := by decide
    exact decide_eq_true ⟨UInt8.le_trans h0 hc.1, hc.2⟩
  rw [List.dropWhile_cons_of_pos hdigit]
  constructor
  · rw [← List.takeWhile_append_dropWhile (p := isdigit) (l := format), List.mem_append] at hnul
    exact hnul.resolve_left fun hmem => absurd (List.mem_takeWhile_imp hmem) (by decide)
  · exact List.length_dropWhile_le isdigit format

/-- What every round keeps holds behind the loop. -/
theorem vsnprintf_loop_keeps {ap : Nat → va_arg} {P : vsnprintf_t → Prop}
    (hopen : ∀ s, P s →
      P { s with
        in_block := true, block_size := 0, block_len := 0, block_space := false
        block_alt := false })
    (hpush : ∀ s c, P s → s.size ≠ 0 → c ≠ ch '%' → Succeeds (s.push c) fun s' =>
      P { s' with size := size_sub s'.size 1 })
    (hnumber : ∀ s number, P s → P { s with block_len := atoi number })
    (hdirective : ∀ s c, P s → Succeeds (directive ap s c) P) {fuel : Nat} {format : Bytes}
    (hnul : 0 ∈ format) (hfuel : format.length ≤ fuel) (h : P s) :
    Succeeds (vsnprintf_loop ap fuel format s) P := by
  induction fuel generalizing format s with
  | zero =>
    rw [List.length_eq_zero_iff.mp (Nat.le_zero.mp hfuel)] at hnul
    exact absurd hnul List.not_mem_nil
  | succ fuel ih =>
    match format with
    | [] => exact absurd hnul List.not_mem_nil
    | c :: format =>
      have hlen : format.length ≤ fuel := Nat.le_of_succ_le_succ hfuel
      unfold vsnprintf_loop
      split_ifs with hend hblock hpercent hdigit
      · exact succeeds_ok h
      all_goals
        rw [not_or] at hend
        have hrest := (List.mem_cons.mp hnul).resolve_left (Ne.symm hend.1)
      · exact ih hrest hlen (hopen s h)
      · exact (hpush s c h hend.2 hpercent).bind fun s' hs' => ih hrest hlen hs'
      · obtain ⟨hnul', hlen'⟩ := digits_rest hdigit hrest
        unfold cstring
        rw [if_pos hnul]
        exact ih hnul' (hlen'.trans hlen) (hnumber s _ h)
      · exact (hdirective s c h).bind fun s' h' => ih hrest hlen h'

theorem vsnprintf_loop_room {ap : Nat → va_arg}
    (hap : ∀ i block, (ap i).string = some block → 0 ∈ block)
    {fuel : Nat} {format : Bytes} (hnul : 0 ∈ format) (hfuel : format.length ≤ fuel)
    (h : Room n 0 s) :
    Succeeds (vsnprintf_loop ap fuel format s) (Room n 0) := by
  refine vsnprintf_loop_keeps (fun s h => ⟨h.line, h.size, h.fits⟩) (fun s c h hsize _ => ?_)
    (fun s _ h => ⟨h.line, h.size, h.fits⟩) (fun s c h => directive_room hap h c) hnul hfuel h
  obtain ⟨s', hs', hroom⟩ := push_one h (Nat.pos_of_ne_zero hsize) c
  have hcount : Room n 0 (s'.count 1) := count_room hroom
  exact ⟨s', hs', hcount.line, hcount.size, hcount.fits⟩

end Room

theorem vsnprintf_succeeds {size : Nat} (hsize : 1 ≤ size) {str : Bytes} (hstr : str.length = size)
    (format : CString) {ap : Nat → va_arg}
    (hap : ∀ i block, (ap i).string = some block → 0 ∈ block) :
    Succeeds (vsnprintf str size format ap) fun str' => str'.length = size ∧ 0 ∈ str' := by
  have hnul : 0 ∈ format.block := List.mem_append_right _ (by simp)
  refine (vsnprintf_loop_room hap hnul le_rfl ⟨hstr, Nat.zero_add size, Nat.zero_le _⟩).bind
    fun s h => ?_
  have hline := h.line
  have hstr' := h.size
  -- Where no byte is left, the last one is taken back.
  generalize hend : (if s.size = 0 then (s.str : Int) - 1 else s.str) = i
  have hi : 0 ≤ i ∧ i < s.line.length := by
    split_ifs at hend
    · omega
    · omega
  unfold store
  rw [if_pos hi]
  refine succeeds_ok ⟨?_, ?_⟩
  · rw [List.length_set, hline]
  · exact List.mem_set (by omega) 0

/-- **The formatter stays in its buffer**, for every format and all arguments. -/
theorem formats_within {size : Nat} (hsize : 1 ≤ size) {str : Bytes} (hstr : str.length = size)
    (format : CString) {ap : Nat → va_arg}
    (hap : ∀ i block, (ap i).string = some block → 0 ∈ block) :
    ∃ str', vsnprintf str size format ap = .ok str' ∧ str'.length = size ∧ 0 ∈ str' :=
  vsnprintf_succeeds hsize hstr format hap

/-- An argument for every directive. -/
def sample (_ : Nat) : va_arg where
  int := -7
  long := 4096
  pointer := 0
  string := some (ascii "a\"b" ++ [0])

theorem formats_within_short :
    ∃ str', vsnprintf (List.replicate 6 1) 6 ⟨ascii "%*s%H%l", by decide⟩ sample = .ok str' ∧
    str'.length = 6 ∧ 0 ∈ str' :=
  formats_within (by decide) rfl _ fun _ _ h => Option.some.inj h ▸ by decide

example :
    vsnprintf (List.replicate 6 1) 6 ⟨ascii "%*s%H%l", by decide⟩ sample =
      .ok (ascii "a\"ba." ++ [0]) := by
  decide +kernel

end Log
