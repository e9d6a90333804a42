import IcecastCommon.Log.Written

/-!
# The other directives

`%s`, `%.Ns` and the numbers, between literal bytes: what a whole format writes, and where it agrees
with the `vsnprintf` of C.
-/

namespace Log

open Lib vsnprintf_t

/-! ## Arguments that are copied -/

section Copied

variable {n : Nat} {s : vsnprintf_t} {block : Bytes} {len : Int}

/-- The bytes that are left of a width, until it is zero. -/
def width_left (len : Int) : Nat := (len % 2 ^ 32).toNat

theorem width_left_zero (hlen : to_int len = len) : width_left len = 0 ↔ len = 0 := by
  obtain ⟨hlow, hhigh⟩ := to_int_range len
  rw [hlen] at hlow hhigh
  unfold width_left
  omega

theorem width_left_pred (hlen : to_int len = len) (hzero : len ≠ 0) :
    width_left (to_int (len - 1)) = width_left len - 1 := by
  obtain ⟨hlow, hhigh⟩ := to_int_range len
  rw [hlen] at hlow hhigh
  unfold width_left to_int
  rw [Int.bmod_def]
  split_ifs <;> omega

/-- The loop of the other directives reads one byte behind the last one that it copies. -/
theorem arg_loop_push (h : Room n 0 s) (hlen : to_int s.block_len = s.block_len) :
    arg_loop push block s =
      if 0 ∈ block ∨ min s.size (width_left s.block_len) < block.length then
        .ok (s.written ((block.takeWhile (· != 0)).take (min s.size (width_left s.block_len))))
      else .error .bounds := by
  induction block generalizing s with
  | nil => rfl
  | cons c block ih =>
    unfold arg_loop
    by_cases hc : c = 0
    · rw [if_neg fun hgo => hgo.1 hc, if_pos (.inl (by simp [hc])),
        List.takeWhile_cons_of_neg (by simp [hc]), List.take_nil,
        written_nil hlen]
      rfl
    rw [List.takeWhile_cons_of_pos (by simp [hc])]
    by_cases hend : s.block_len = 0 ∨ s.size = 0
    · have hnone : min s.size (width_left s.block_len) = 0 := by
        rcases hend with hzero | hzero
        · rw [(width_left_zero hlen).mpr hzero, Nat.min_zero]
        · rw [hzero, Nat.zero_min]
      rw [if_neg fun hgo => hend.elim hgo.2.1 hgo.2.2, hnone, if_pos (.inr (Nat.succ_pos _)),
        List.take_zero, written_nil hlen]
      rfl
    rw [not_or] at hend
    have hsize := Nat.pos_of_ne_zero hend.2
    have hwidth : width_left s.block_len ≠ 0 :=
      fun hzero => hend.1 ((width_left_zero hlen).mp hzero)
    obtain ⟨s1, hs1, hcount⟩ := bind_eq_ok.mp (push_count h hsize c)
    obtain ⟨k, hk⟩ : ∃ k, min s.size (width_left s.block_len) = k + 1 :=
      Nat.exists_eq_succ_of_ne_zero
        (Nat.ne_of_gt (Nat.lt_min.mpr ⟨hsize, Nat.pos_of_ne_zero hwidth⟩))
    have hnext : min (s.written [c]).size (width_left (s.written [c]).block_len) = k := by
      show min (s.size - 1) (width_left (to_int (s.block_len - 1))) = k
      rw [width_left_pred hlen hend.1]
      omega
    have hread : 0 ∈ block ∨ k < block.length ↔ 0 ∈ c :: block ∨ k + 1 < (c :: block).length := by
      rw [List.mem_cons, or_iff_right (Ne.symm hc), List.length_cons, Nat.add_lt_add_iff_right]
    have hroom : Room n 0 (s.written [c]) := written_room h hsize
    rw [if_pos ⟨hc, hend⟩, hs1, ok_bind, Except.ok.inj hcount, ih hroom (by simp), hnext, hk]
    simp only [hread, written_written (str_le h)]
    rfl

theorem print_arg_copied {format : Byte} (hformat : format ≠ ch 'H')
    (hnul : s.block_len = 0 → 0 ∈ block) (h : Room n 0 s) (hlen : to_int s.block_len = s.block_len)
    (hwidth : len = width_of s.block_len (escaped_len s.block_space (block.takeWhile (· != 0)))) :
    print_arg s format (some block) =
      if 0 ∈ block ∨ min s.size (width_left len) < block.length then
        .ok (({ s with block_alt := false }.closed len).written
          ((block.takeWhile (· != 0)).take (min s.size (width_left len))))
      else .error .bounds := by
  have hlen' : to_int len = len := hwidth ▸ width_of_fits hlen _
  have hchosen : width { s with block_alt := false } (some block) = .ok len := by
    rw [hwidth]
    by_cases hzero : s.block_len = 0
    · exact width_eq (s := { s with block_alt := false }) (hnul hzero)
    · unfold vsnprintf_t.width width_of
      rw [if_neg hzero, if_neg hzero]
      rfl
  unfold print_arg
  rw [if_pos hformat]
  dsimp only
  rw [if_neg (by simp), hchosen, ok_bind, if_neg hformat]
  exact arg_loop_push (s := { s with block_alt := false }.closed len) ⟨h.line, h.size, h.fits⟩ hlen'

end Copied

/-! ## Formats -/

/-- The modifiers of a number. -/
inductive Length where
  | none
  | l
  | ll
  | z
deriving DecidableEq

def Length.bytes : Length → Bytes
  | none => []
  | l => ascii "l"
  | ll => ascii "ll"
  | z => ascii "z"

/-- The bits of the argument. -/
def Length.width : Length → Nat
  | none => 32
  | _ => 64

def Length.read (a : va_arg) : (length : Length) → BitVec length.width
  | none => a.int
  | l => a.long
  | ll => a.long
  | z => a.long

inductive Conversion where
  | d
  | i
  | u
deriving DecidableEq

def Conversion.byte : Conversion → Byte
  | d => ch 'd'
  | i => ch 'i'
  | u => ch 'u'

/-- What C prints. -/
def Conversion.text {w : Nat} (conversion : Conversion) (value : BitVec w) : Bytes :=
  match conversion with
  | d => signed_decimal value.toInt
  | i => signed_decimal value.toInt
  | u => decimal value.toNat

/-- The directives that C has as well, each with an argument that fits it. The memory of `%.Ns` has
a NUL or `n` bytes. -/
inductive Directive where
  | string (arg : CString)
  | precision (n : Nat) (range : 1 ≤ n ∧ n < 2 ^ 31) (memory : Bytes)
      (valid : 0 ∈ memory ∨ n ≤ memory.length)
  | number (length : Length) (conversion : Conversion) (value : BitVec length.width)

namespace Directive

/-- The directive without its percent sign. -/
def bytes : Directive → Bytes
  | string _ => [ch 's']
  | precision n _ _ _ => ch '.' :: (decimal n ++ [ch 's'])
  | number length conversion _ => length.bytes ++ [conversion.byte]

/-- What C prints. -/
def text : Directive → Bytes
  | string arg => arg.bytes
  | precision n _ memory _ => (memory.takeWhile (· != 0)).take n
  | number _ conversion value => conversion.text value

/-- The argument is there. -/
def ReadBy (a : va_arg) : Directive → Prop
  | string arg => a.string = some arg.block
  | precision _ _ memory _ => a.string = some memory
  | number length _ value => length.read a = value

/-- What the code prints: the width of a string is an `int`. -/
def shown : Directive → Bytes
  | string arg => arg.bytes.take (escaped_len false arg.bytes % 2 ^ 32)
  | precision n _ memory _ => (memory.takeWhile (· != 0)).take n
  | number _ conversion value => conversion.text value

/-- The byte that stops the loop over the argument is there. -/
def Ends : Directive → Prop
  | string _ => True
  | precision n _ memory _ => 0 ∈ memory ∨ n < memory.length
  | number _ _ _ => True

end Directive

/-- The state between two parts of a format. -/
structure Between (n : Nat) (out : Bytes) (ap : Nat) (s : vsnprintf_t) : Prop where
  room : Room n 0 s
  out : s.out = out
  ap : s.ap = ap
  in_block : s.in_block = false

section Steps

variable {n i fuel : Nat} {ap : Nat → va_arg} {s : vsnprintf_t} {out rest : Bytes}

theorem Between.size (h : Between n out i s) : s.size = n - out.length := by
  have hsize := h.room.size
  have hout := out_length h.room
  rw [h.out] at hout
  omega

theorem literal_step (h : Between n out i s) (hsize : s.size ≠ 0) {c : Byte}
    (hc : c ≠ 0 ∧ c ≠ ch '%') :
    ∃ s', vsnprintf_loop ap (fuel + 1) (c :: rest) s = vsnprintf_loop ap fuel rest s' ∧
      Between n (out ++ [c]) i s' := by
  have hpos : ([c] : Bytes).length ≤ s.size := Nat.pos_of_ne_zero hsize
  have hroom := written_room h.room hpos
  refine ⟨s.literal c, loop_literal h.room h.in_block hsize hc.1 hc.2, ⟨?_, ?_, h.ap, h.in_block⟩⟩
  · exact ⟨hroom.line, hroom.size, hroom.fits⟩
  · rw [← h.out]
    exact written_out h.room [c]

theorem print_step {format : Byte} (hformat : format ≠ ch 'H') {block : Bytes}
    (hnul : s.block_len = 0 → 0 ∈ block) (h : Room n 0 s) (hout : s.out = out)
    (hlen : to_int s.block_len = s.block_len) {k : Nat}
    (hwidth : width_left
      (width_of s.block_len (escaped_len s.block_space (block.takeWhile (· != 0)))) = k)
    (hend : 0 ∈ block ∨ min s.size k < block.length) :
    ∃ s', print_arg s format (some block) = .ok s' ∧
      Between n (out ++ ((block.takeWhile (· != 0)).take k).take s.size) s.ap s' := by
  have hprint := print_arg_copied hformat hnul h hlen rfl
  rw [hwidth, if_pos hend] at hprint
  refine ⟨_, hprint, ?_⟩
  generalize width_of s.block_len (escaped_len s.block_space (block.takeWhile (· != 0))) = len
  have hclosed : Room n 0 ({ s with block_alt := false }.closed len) := ⟨h.line, h.size, h.fits⟩
  have hle : ((block.takeWhile (· != 0)).take (min s.size k)).length ≤ s.size := by
    rw [List.length_take]
    omega
  refine ⟨written_room hclosed hle, ?_, rfl, rfl⟩
  rw [written_out hclosed, ← hout, List.take_take]
  rfl

theorem print_bounds {format : Byte} (hformat : format ≠ ch 'H') {block : Bytes}
    (hnul : s.block_len = 0 → 0 ∈ block) (h : Room n 0 s)
    (hlen : to_int s.block_len = s.block_len) {k : Nat}
    (hwidth : width_left
      (width_of s.block_len (escaped_len s.block_space (block.takeWhile (· != 0)))) = k)
    (hend : ¬ (0 ∈ block ∨ min s.size k < block.length)) :
    print_arg s format (some block) = .error .bounds := by
  rw [print_arg_copied hformat hnul h hlen rfl, hwidth, if_neg hend]

theorem width_left_of_size (whole : Nat) : width_left (int_of_size whole) = whole % 2 ^ 32 := by
  unfold width_left
  rw [int_of_size_mod]
  split_ifs <;> omega

/-! ### Precisions -/

theorem width_left_of_precision {m : Nat} (hm : 1 ≤ m ∧ m < 2 ^ 31) (whole : Nat) :
    width_left (width_of (m : Int) whole) = m := by
  rw [width_of, if_neg (by omega), width_left]
  omega

theorem to_int_precision {m : Nat} (hm : m < 2 ^ 31) : to_int (m : Int) = m :=
  to_int_of_fits (by omega) (by omega)

theorem precision_print {m : Nat} (hm : 1 ≤ m ∧ m < 2 ^ 31) (hs : s.block_len = m) {block : Bytes}
    (h : Room n 0 s) (hout : s.out = out) (hend : 0 ∈ block ∨ min s.size m < block.length) :
    ∃ s', print_arg s (ch 's') (some block) = .ok s' ∧
      Between n (out ++ ((block.takeWhile (· != 0)).take m).take s.size) s.ap s' := by
  have hlen : to_int s.block_len = s.block_len := by rw [hs, to_int_precision hm.2]
  have hzero : s.block_len ≠ 0 := by omega
  refine print_step (by decide) (fun hnone => absurd hnone hzero) h hout hlen ?_ hend
  rw [hs]
  exact width_left_of_precision hm _

/-- Without the byte behind the last one that is copied, the loop reads past the memory. -/
theorem precision_print_bounds {m : Nat} (hm : 1 ≤ m ∧ m < 2 ^ 31) (hs : s.block_len = m)
    {block : Bytes} (h : Room n 0 s) (hend : ¬ (0 ∈ block ∨ min s.size m < block.length)) :
    print_arg s (ch 's') (some block) = .error .bounds := by
  have hlen : to_int s.block_len = s.block_len := by rw [hs, to_int_precision hm.2]
  have hzero : s.block_len ≠ 0 := by omega
  refine print_bounds (by decide) (fun hnone => absurd hnone hzero) h hlen ?_ hend
  rw [hs]
  exact width_left_of_precision hm _

/-! ### Numbers -/

theorem decimal_length_le {m : Nat} (hm : m < 2 ^ 64) : (decimal m).length ≤ 20 := by
  unfold decimal
  split_ifs
  · exact Nat.succ_le_succ (Nat.zero_le _)
  · rw [List.length_reverse, List.length_map]
    exact (Nat.digits_length_le_iff (by decide) m).mpr (hm.trans (by decide))

theorem digit_printed : ∀ b, isdigit b → vsnprintf_is_print b false = true ∧ b ≠ 0 :=
  forall_byte (by decide +kernel)

theorem conversion_text (conversion : Conversion) {w : Nat} (hw : w ≤ 64) (value : BitVec w) :
    (∀ b ∈ conversion.text value, vsnprintf_is_print b false = true ∧ b ≠ 0) ∧
      (conversion.text value).length ≤ 21 := by
  have hlt : (2 : Nat) ^ w ≤ 2 ^ 64 := Nat.pow_le_pow_right (by decide) hw
  have hunsigned (m : Nat) : ∀ b ∈ decimal m, vsnprintf_is_print b false = true ∧ b ≠ 0 :=
    fun b hb => digit_printed b (decimal_digits m b hb)
  have hsigned : (∀ b ∈ signed_decimal value.toInt, vsnprintf_is_print b false = true ∧ b ≠ 0) ∧
      (signed_decimal value.toInt).length ≤ 21 := by
    have habs : value.toInt.natAbs < 2 ^ 64 := by
      have hle := BitVec.two_mul_toInt_lt (x := value)
      have hge := BitVec.le_two_mul_toInt (x := value)
      have hcast : ((2 : Nat) ^ w : Int) ≤ (2 ^ 64 : Nat) := by exact_mod_cast hlt
      push_cast at hcast
      omega
    have hlength := decimal_length_le habs
    unfold signed_decimal
    split_ifs
    · refine ⟨fun b hb => ?_, by rw [List.length_cons]; omega⟩
      rcases List.mem_cons.mp hb with rfl | hb
      · decide
      · exact hunsigned _ b hb
    · exact ⟨hunsigned _, by omega⟩
  cases conversion with
  | d => exact hsigned
  | i => exact hsigned
  | u => exact ⟨hunsigned _, (decimal_length_le (value.isLt.trans_le hlt)).trans (by decide)⟩

theorem printed_text {text : Bytes} (h : ∀ b ∈ text, vsnprintf_is_print b false = true ∧ b ≠ 0) :
    escaped_len false text = text.length ∧ (text ++ [0]).takeWhile (· != 0) = text := by
  constructor
  · induction text with
    | nil => rfl
    | cons b text ih =>
      rw [escaped_len_cons, if_pos (h b (by simp)).1,
        ih fun b' hb' => h b' (List.mem_cons_of_mem b hb'), List.length_cons,
        Nat.add_comm]
  · rw [takeWhile_nul, List.takeWhile_eq_self_iff]
    exact fun b hb => bne_iff_ne.mpr (h b hb).2

theorem number_step (length : Length) (conversion : Conversion) (hs : s.block_len = 0)
    (hspace : s.block_space = false) (h : Room n 0 s) (hout : s.out = out) :
    ∃ s', print_arg s conversion.byte (some (conversion.text (length.read (ap i)) ++ [0])) =
      .ok s' ∧
      Between n (out ++ (conversion.text (length.read (ap i))).take s.size) s.ap s' := by
  have hwidth : length.width ≤ 64 := by cases length <;> decide
  obtain ⟨hprinted, hlength⟩ := conversion_text conversion hwidth (length.read (ap i))
  generalize conversion.text (length.read (ap i)) = text at hprinted hlength ⊢
  obtain ⟨hescaped, hcut⟩ := printed_text hprinted
  have hformat : conversion.byte ≠ ch 'H' := by cases conversion <;> decide
  have hleft :
      width_left
        (width_of s.block_len (escaped_len s.block_space ((text ++ [0]).takeWhile (· != 0)))) =
      text.length := by
    rw [hspace, hcut, hescaped, hs, width_of, if_pos rfl, width_left_of_size]
    exact Nat.mod_eq_of_lt (by omega)
  have hnul : 0 ∈ text ++ [0] := by simp
  have hstep := print_step hformat (fun _ => hnul) h hout (by rw [hs]; rfl) hleft (.inl hnul)
  rw [hcut, List.take_length] at hstep
  exact hstep

/-- The modifiers are counted in `block_size`. -/
theorem modifiers_loop (length : Length) (hblock : s.in_block = true) (hsize : s.size ≠ 0)
    (hs : s.block_size = 0) :
    ∃ block_size, vsnprintf_loop ap (fuel + length.bytes.length) (length.bytes ++ rest) s =
      vsnprintf_loop ap fuel rest { s with block_size := block_size } ∧
      ∀ (conversion : Conversion) a,
        number_text conversion.byte block_size a = (conversion.text (length.read a), true) := by
  have hl {fuel : Nat} {rest : Bytes} {s : vsnprintf_t} (hblock : s.in_block = true)
    (hsize : s.size ≠ 0) :
      vsnprintf_loop ap (fuel + 1) (ch 'l' :: rest) s =
        vsnprintf_loop ap fuel rest { s with block_size := to_int (s.block_size + 1) } := by
    rw [loop_directive hblock hsize (by decide) (by decide)]
    rfl
  cases length with
  | none =>
    refine ⟨0, ?_, fun conversion a => by cases conversion <;> rfl⟩
    rw [← hs]
    rfl
  | l =>
    refine ⟨1, ?_, fun conversion a => by cases conversion <;> rfl⟩
    show vsnprintf_loop ap (fuel + 1) (ch 'l' :: rest) s = _
    rw [hl hblock hsize, hs]
    rfl
  | ll =>
    refine ⟨2, ?_, fun conversion a => by cases conversion <;> rfl⟩
    show vsnprintf_loop ap (fuel + 1 + 1) (ch 'l' :: ch 'l' :: rest) s = _
    rw [hl hblock hsize, hl (s := { s with block_size := to_int (s.block_size + 1) }) hblock hsize,
      hs]
    rfl
  | z =>
    refine ⟨(ch 'z').toNat, ?_, fun conversion a => by cases conversion <;> rfl⟩
    show vsnprintf_loop ap (fuel + 1) (ch 'z' :: rest) s = _
    rw [loop_directive hblock hsize (by decide) (by decide)]
    rfl

/-! ### One directive -/

theorem string_step (arg : CString) (hread : (ap i).string = some arg.block) (h : Between n out i s)
    (hsize : s.size ≠ 0) :
    ∃ s', vsnprintf_loop ap (fuel + 2) (ch '%' :: ch 's' :: rest) s =
      vsnprintf_loop ap fuel rest s' ∧
      Between n (out ++ (arg.bytes.take (escaped_len false arg.bytes % 2 ^ 32)).take s.size)
        (i + 1) s' := by
  have hcut : arg.block.takeWhile (· != 0) = arg.bytes := congrArg CString.bytes (arg.cut_append [])
  have hroom : Room n 0 { s.opened with ap := s.ap + 1 } := ⟨h.room.line, h.room.size, h.room.fits⟩
  have hleft : width_left (width_of 0 (escaped_len false (arg.block.takeWhile (· != 0)))) =
      escaped_len false arg.bytes % 2 ^ 32 := by
    rw [hcut, width_of, if_pos rfl, width_left_of_size]
  have hnul : 0 ∈ arg.block := by simp [CString.block]
  obtain ⟨s', hprint, hbetween⟩ :=
    print_step (show ch 's' ≠ ch 'H' by decide) (fun _ => hnul) hroom h.out rfl hleft (.inl hnul)
  rw [hcut] at hbetween
  refine ⟨s', ?_, h.ap ▸ hbetween⟩
  have hdirective : directive ap s.opened (ch 's') = .ok s' := by
    show print_arg { s.opened with ap := s.ap + 1 } (ch 's') (ap s.ap).string = .ok s'
    rw [h.ap, hread, ← h.ap]
    exact hprint
  rw [loop_percent h.in_block hsize,
    loop_directive (s := s.opened) rfl hsize (by decide) (by decide), hdirective, ok_bind]

theorem precision_loop {m : Nat} (hm : 1 ≤ m ∧ m < 2 ^ 31) {block : Bytes}
    (hread : (ap i).string = some block) (h : Between n out i s) (hsize : s.size ≠ 0)
    (hnul : 0 ∈ rest) :
    vsnprintf_loop ap (fuel + 4) (ch '%' :: ch '.' :: (decimal m ++ ch 's' :: rest)) s =
      print_arg { s.opened with block_len := m, ap := i + 1 } (ch 's') (some block) >>=
      vsnprintf_loop ap fuel rest := by
  have hvalue : width_value m = m := by
    rw [width_value, min_eq_left (by omega)]
    exact wrap_of_fits (by omega) (by omega)
  have hdot : directive ap s.opened (ch '.') = .ok s.opened := rfl
  rw [loop_percent h.in_block hsize,
    loop_directive (s := s.opened) rfl hsize (by decide) (by decide), hdot, ok_bind,
    loop_number (s := s.opened) rfl hsize hm.1 (by rfl) (by simp [hnul]), hvalue,
    loop_directive (s := { s.opened with block_len := m }) rfl hsize (by decide) (by decide)]
  show print_arg { s.opened with block_len := m, ap := s.ap + 1 } (ch 's') (ap s.ap).string >>= _ =
    _
  rw [h.ap, hread]

theorem precision_step {m : Nat} (hm : 1 ≤ m ∧ m < 2 ^ 31) {block : Bytes}
    (hread : (ap i).string = some block) (hend : 0 ∈ block ∨ m < block.length)
    (h : Between n out i s) (hsize : s.size ≠ 0) (hnul : 0 ∈ rest) :
    ∃ s', vsnprintf_loop ap (fuel + 4) (ch '%' :: ch '.' :: (decimal m ++ ch 's' :: rest)) s =
      vsnprintf_loop ap fuel rest s' ∧
      Between n (out ++ ((block.takeWhile (· != 0)).take m).take s.size) (i + 1) s' := by
  have hroom : Room n 0 { s.opened with block_len := m, ap := i + 1 } :=
    ⟨h.room.line, h.room.size, h.room.fits⟩
  have hreach : 0 ∈ block ∨ min s.size m < block.length :=
    hend.imp_right (Nat.min_le_right _ _).trans_lt
  obtain ⟨s', hprint, hbetween⟩ := precision_print hm rfl hroom h.out hreach
  refine ⟨s', ?_, hbetween⟩
  rw [precision_loop hm hread h hsize hnul, hprint, ok_bind]

theorem precision_bounds {m : Nat} (hm : 1 ≤ m ∧ m < 2 ^ 31) {block : Bytes}
    (hread : (ap i).string = some block) (hend : ¬ (0 ∈ block ∨ m < block.length))
    (h : Between n out i s) (hsize : m ≤ s.size) (hnul : 0 ∈ rest) :
    vsnprintf_loop ap (fuel + 4) (ch '%' :: ch '.' :: (decimal m ++ ch 's' :: rest)) s =
      .error .bounds := by
  have hroom : Room n 0 { s.opened with block_len := m, ap := i + 1 } :=
    ⟨h.room.line, h.room.size, h.room.fits⟩
  have hmin : min s.size m = m := Nat.min_eq_right hsize
  have hprint := precision_print_bounds hm rfl hroom fun hreach => hend (hmin ▸ hreach)
  rw [precision_loop hm hread h (by omega) hnul, hprint]
  rfl

theorem precision_fuel {m : Nat} {hm : 1 ≤ m ∧ m < 2 ^ 31} {memory : Bytes}
    {valid : 0 ∈ memory ∨ m ≤ memory.length}
    (hfuel : (ch '%' :: ((Directive.precision m hm memory valid).bytes ++ rest)).length ≤ fuel) :
    ∃ k ≥ rest.length, fuel = k + 4 := by
  obtain ⟨b, tail, hdecimal, -⟩ := decimal_head hm.1
  have hlength : (decimal m).length = tail.length + 1 := congrArg List.length hdecimal
  simp only [Directive.bytes, List.length_cons, List.length_append, List.length_nil,
    hlength] at hfuel
  exact ⟨fuel - 4, by omega, by omega⟩

theorem precision_bytes {m : Nat} {hm : 1 ≤ m ∧ m < 2 ^ 31} {memory : Bytes}
    {valid : 0 ∈ memory ∨ m ≤ memory.length} :
    (Directive.precision m hm memory valid).bytes ++ rest =
      ch '.' :: (decimal m ++ ch 's' :: rest) := by
  simp [Directive.bytes]

theorem number_directive {conversion : Conversion} {length : Length} {block_size : Int}
    (htext : ∀ a, number_text conversion.byte block_size a =
      (conversion.text (length.read a), true)) :
    directive ap { s with block_size := block_size } conversion.byte =
      print_arg { s with block_size := block_size, ap := s.ap + 1 } conversion.byte
        (some (conversion.text (length.read (ap s.ap)) ++ [0])) := by
  have hbranch (s : vsnprintf_t) : directive ap s conversion.byte =
      print_arg { s with ap := if (number_text conversion.byte s.block_size (ap s.ap)).2 then
        s.ap + 1 else s.ap }
        conversion.byte (some ((number_text conversion.byte s.block_size (ap s.ap)).1 ++ [0])) := by
    cases conversion <;> rfl
  rw [hbranch, htext]
  rfl

theorem conversion_step (length : Length) (conversion : Conversion) (h : Between n out i s)
    (hsize : s.size ≠ 0) :
    ∃ s', vsnprintf_loop ap (fuel + 1 + length.bytes.length + 1)
      (ch '%' :: (length.bytes ++ conversion.byte :: rest)) s =
        vsnprintf_loop ap fuel rest s' ∧
      Between n (out ++ (conversion.text (length.read (ap i))).take s.size) (i + 1) s' := by
  obtain ⟨hroom, hout, rfl, hblock⟩ := h
  obtain ⟨block_size, hmodifiers, htext⟩ :=
    @modifiers_loop (fuel + 1) ap s.opened (conversion.byte :: rest) length rfl hsize rfl
  have hread : Room n 0 { s.opened with block_size := block_size, ap := s.ap + 1 } :=
    ⟨hroom.line, hroom.size, hroom.fits⟩
  obtain ⟨s', hprint, hbetween⟩ := @number_step n s.ap ap _ out length conversion rfl rfl hread hout
  have hdirective :
      directive ap { s.opened with block_size := block_size } conversion.byte = .ok s' := by
    rw [number_directive (htext conversion), ← hprint]
    rfl
  refine ⟨s', ?_, hbetween⟩
  rw [loop_percent hblock hsize, hmodifiers,
    loop_directive (s := { s.opened with block_size := block_size }) rfl hsize
      (by cases conversion <;> decide) (by cases conversion <;> decide), hdirective, ok_bind]

/-- **One directive** writes what the code shows of its argument. -/
theorem directive_step (d : Directive) (hread : d.ReadBy (ap i)) (hends : d.Ends)
    (h : Between n out i s) (hsize : s.size ≠ 0) (hnul : 0 ∈ rest)
    (hfuel : (ch '%' :: (d.bytes ++ rest)).length ≤ fuel) :
    ∃ fuel' ≥ rest.length, ∃ s', vsnprintf_loop ap fuel (ch '%' :: (d.bytes ++ rest)) s =
      vsnprintf_loop ap fuel' rest s' ∧
      Between n (out ++ d.shown.take s.size) (i + 1) s' := by
  cases d with
  | string arg =>
    obtain ⟨fuel, rfl⟩ : ∃ k, fuel = k + 2 := ⟨fuel - 2, by simp [Directive.bytes] at hfuel; omega⟩
    exact ⟨fuel, by simpa [Directive.bytes] using hfuel, string_step arg hread h hsize⟩
  | precision m hm memory valid =>
    obtain ⟨fuel, hrest, rfl⟩ := precision_fuel hfuel
    rw [precision_bytes]
    exact ⟨fuel, hrest, precision_step hm hread hends h hsize hnul⟩
  | number length conversion value =>
    obtain rfl : length.read (ap i) = value := hread
    have hbytes : (Directive.number length conversion (length.read (ap i))).bytes ++ rest =
        length.bytes ++ conversion.byte :: rest := by
      simp [Directive.bytes]
    rw [hbytes] at hfuel ⊢
    rw [List.length_cons, List.length_append, List.length_cons] at hfuel
    obtain ⟨fuel, rfl⟩ : ∃ k, fuel = k + 1 + length.bytes.length + 1 :=
      ⟨fuel - length.bytes.length - 2, by omega⟩
    exact ⟨fuel, by omega, conversion_step length conversion h hsize⟩

end Steps

/-! ## Whole formats -/

/-- A part of a format: a byte, a doubled percent sign, or a directive with its argument. -/
inductive Element where
  | literal (c : Byte) (plain : c ≠ 0 ∧ c ≠ ch '%')
  | percent
  | directive (d : Directive)

namespace Element

def bytes : Element → Bytes
  | literal c _ => [c]
  | percent => ascii "%%"
  | directive d => ch '%' :: d.bytes

/-- What C prints. -/
def text : Element → Bytes
  | literal c _ => [c]
  | percent => ascii "%"
  | directive d => d.text

/-- What the code prints, except for a doubled percent sign. -/
def shown : Element → Bytes
  | literal c _ => [c]
  | percent => ascii "%"
  | directive d => d.shown

def directive? : Element → Option Directive
  | directive d => some d
  | _ => none

end Element

/-- The text of a format in C. -/
def text_of_format (es : List Element) : Bytes := es.flatMap Element.text

def shown_of_format (es : List Element) : Bytes := es.flatMap Element.shown

/-- The arguments from the `i`th on are those of the format. -/
def Reads (ap : Nat → va_arg) : List Element → Nat → Prop
  | [], _ => True
  | .directive d :: es, i => d.ReadBy (ap i) ∧ Reads ap es (i + 1)
  | _ :: es, i => Reads ap es i

/-- The arguments that C consumes. -/
def consumed (es : List Element) : Nat := (es.filterMap Element.directive?).length

theorem directive_bytes_nulFree (d : Directive) : 0 ∉ d.bytes := by
  cases d with
  | string arg => exact (by decide : (0 : Byte) ∉ [ch 's'])
  | precision m hm memory valid =>
    simp only [Directive.bytes, List.mem_cons, List.mem_append, List.not_mem_nil, or_false, not_or]
    exact ⟨by decide, fun hmem => absurd (decimal_digits m 0 hmem) (by decide), by decide⟩
  | number length conversion value =>
    have hall : ∀ (length : Length) (conversion : Conversion),
        (0 : Byte) ∉ length.bytes ++ [conversion.byte] := by
      rintro (_ | _ | _ | _) (_ | _ | _) <;> decide
    exact hall length conversion

theorem format_nulFree (es : List Element) : 0 ∉ es.flatMap Element.bytes := by
  intro hmem
  obtain ⟨e, -, he⟩ := List.mem_flatMap.mp hmem
  cases e with
  | literal c plain => exact plain.1 (List.mem_singleton.mp he).symm
  | percent => exact absurd he (by decide)
  | directive d => exact (List.mem_cons.mp he).elim (by decide) (directive_bytes_nulFree d)

def format_of (es : List Element) : CString := ⟨es.flatMap Element.bytes, format_nulFree es⟩

section Formats

variable {n i fuel : Nat} {ap : Nat → va_arg} {s : vsnprintf_t} {out : Bytes} {es : List Element}

/-- Every loop over an argument ends. -/
def AllEnd (es : List Element) : Prop := ∀ d, .directive d ∈ es → d.Ends

theorem consumed_cons (e : Element) (es : List Element) :
    consumed (e :: es) = consumed [e] + consumed es := by
  unfold consumed
  rw [← List.length_append, ← List.filterMap_append, List.singleton_append]

theorem reads_tail {e : Element} (h : Reads ap (e :: es) i) : Reads ap es (i + consumed [e]) := by
  cases e with
  | literal c plain => exact h
  | percent => exact h
  | directive d => exact h.2

theorem element_step {e : Element} {rest : Bytes} (hpercent : e ≠ .percent)
    (hends : ∀ d, e = .directive d → d.Ends) (hreads : Reads ap (e :: es) i) (h : Between n out i s)
    (hsize : s.size ≠ 0) (hnul : 0 ∈ rest) (hfuel : (e.bytes ++ rest).length ≤ fuel) :
    ∃ fuel' ≥ rest.length, ∃ s', vsnprintf_loop ap fuel (e.bytes ++ rest) s =
      vsnprintf_loop ap fuel' rest s' ∧
      Between n (out ++ e.shown.take s.size) (i + consumed [e]) s' := by
  cases e with
  | literal c plain =>
    obtain ⟨fuel, rfl⟩ : ∃ k, fuel = k + 1 :=
      Nat.exists_eq_succ_of_ne_zero (Nat.ne_of_gt ((Nat.succ_pos _).trans_le hfuel))
    obtain ⟨s', hloop, hbetween⟩ := @literal_step n i fuel ap s out rest h hsize c plain
    have hshown : (Element.literal c plain).shown.take s.size = [c] :=
      List.take_of_length_le (Nat.pos_of_ne_zero hsize)
    refine ⟨fuel, Nat.le_of_succ_le_succ hfuel, s', hloop, ?_⟩
    rw [hshown]
    exact hbetween
  | percent => exact absurd rfl hpercent
  | directive d => exact directive_step d hreads.1 (hends d rfl) h hsize hnul hfuel

theorem shown_cons (e : Element) (es : List Element) (room : Nat) :
    (shown_of_format (e :: es)).take room =
      e.shown.take room ++ (shown_of_format es).take (room - (e.shown.take room).length) := by
  have hrest : room - e.shown.length = room - (e.shown.take room).length := by
    rw [List.length_take]
    omega
  show (e.shown ++ shown_of_format es).take room = _
  rw [List.take_append, hrest]

theorem first_byte (e : Element) (es : List Element) :
    ∃ c rest, (e :: es).flatMap Element.bytes ++ [0] = c :: rest := by
  cases e <;> exact ⟨_, _, rfl⟩

/-- Without doubled percent signs, a format writes what is shown of its parts. -/
theorem elements_written (hpercent : .percent ∉ es) (hends : AllEnd es) (hreads : Reads ap es i)
    (h : Between n out i s) (hfuel : (es.flatMap Element.bytes ++ [0]).length ≤ fuel) :
    ∃ s', vsnprintf_loop ap fuel (es.flatMap Element.bytes ++ [0]) s = .ok s' ∧ Room n 0 s' ∧
      s'.out = out ++ (shown_of_format es).take s.size ∧ s'.ap ≤ i + consumed es := by
  induction es generalizing i fuel s out with
  | nil =>
    obtain ⟨fuel, rfl⟩ : ∃ k, fuel = k + 1 := Nat.exists_eq_succ_of_ne_zero (Nat.ne_of_gt hfuel)
    exact ⟨s, loop_end (.inl rfl), h.room, by simp [shown_of_format, h.out], h.ap.le⟩
  | cons e es ih =>
    by_cases hsize : s.size = 0
    · obtain ⟨c, rest, hformat⟩ := first_byte e es
      rw [hformat] at hfuel ⊢
      obtain ⟨fuel, rfl⟩ : ∃ k, fuel = k + 1 :=
        Nat.exists_eq_succ_of_ne_zero (Nat.ne_of_gt ((Nat.succ_pos _).trans_le hfuel))
      exact ⟨s, loop_end (.inr hsize), h.room, by simp [hsize, h.out],
        by rw [h.ap]; exact Nat.le_add_right _ _⟩
    rw [List.mem_cons, not_or] at hpercent
    have hbytes :
        (e :: es).flatMap Element.bytes ++ [0] = e.bytes ++ (es.flatMap Element.bytes ++ [0]) := by
      simp
    rw [hbytes] at hfuel ⊢
    obtain ⟨fuel', hfuel', s1, hloop, hbetween⟩ := element_step (Ne.symm hpercent.1)
      (fun d hd => hends d (by rw [hd]; exact List.mem_cons_self)) hreads h hsize (by simp) hfuel
    obtain ⟨s2, hloop', hroom, hout, hap⟩ :=
      ih hpercent.2 (fun d hd => hends d (List.mem_cons_of_mem _ hd)) (reads_tail hreads)
        hbetween hfuel'
    have hleft : s1.size = s.size - (e.shown.take s.size).length := by
      rw [hbetween.size, h.size, List.length_append, Nat.sub_add_eq]
    refine ⟨s2, hloop.trans hloop', hroom, ?_, ?_⟩
    · rw [hout, hleft, shown_cons, List.append_assoc]
    · rw [consumed_cons, ← Nat.add_assoc]
      exact hap

theorem shown_le (e : Element) : e.shown.length ≤ e.text.length := by
  cases e with
  | directive d =>
    cases d with
    | string arg => exact List.length_take_le' _ _
    | _ => exact le_rfl
  | _ => exact le_rfl

theorem directive_bounds {d : Directive} {rest : Bytes} (hends : ¬ d.Ends) (hread : d.ReadBy (ap i))
    (h : Between n out i s) (hsize : d.text.length < s.size) (hnul : 0 ∈ rest)
    (hfuel : (ch '%' :: (d.bytes ++ rest)).length ≤ fuel) :
    vsnprintf_loop ap fuel (ch '%' :: (d.bytes ++ rest)) s = .error .bounds := by
  cases d with
  | string arg => exact absurd trivial hends
  | number length conversion value => exact absurd trivial hends
  | precision m hm memory valid =>
    obtain ⟨hzero, hlong⟩ := not_or.mp hends
    have hlength : m ≤ s.size := by
      have hwhole : memory.takeWhile (· != 0) = memory :=
        List.takeWhile_eq_self_iff.mpr (all_ne hzero)
      have htext : (Directive.precision m hm memory valid).text.length = min m memory.length := by
        show ((memory.takeWhile (· != 0)).take m).length = _
        rw [hwhole, List.length_take]
      have hmemory := valid.resolve_left hzero
      omega
    obtain ⟨fuel, -, rfl⟩ := precision_fuel hfuel
    rw [precision_bytes]
    exact precision_bounds hm hread hends h hlength hnul

theorem elements_bounds (hpercent : .percent ∉ es) (hends : ¬ AllEnd es) (hreads : Reads ap es i)
    (h : Between n out i s) (hfuel : (es.flatMap Element.bytes ++ [0]).length ≤ fuel)
    (hsize : (text_of_format es).length < s.size) :
    vsnprintf_loop ap fuel (es.flatMap Element.bytes ++ [0]) s = .error .bounds := by
  induction es generalizing i fuel s out with
  | nil => exact absurd (fun d hd => absurd hd List.not_mem_nil) hends
  | cons e es ih =>
    rw [List.mem_cons, not_or] at hpercent
    have hbytes :
        (e :: es).flatMap Element.bytes ++ [0] = e.bytes ++ (es.flatMap Element.bytes ++ [0]) := by
      simp
    have htext :
        (text_of_format (e :: es)).length = e.text.length + (text_of_format es).length := by
      simp [text_of_format]
    rw [hbytes] at hfuel ⊢
    by_cases he : ∀ d, e = .directive d → d.Ends
    · obtain ⟨fuel', hfuel', s1, hloop, hbetween⟩ :=
        element_step (Ne.symm hpercent.1) he hreads h (by omega) (by simp) hfuel
      have hleft : s1.size = s.size - (e.shown.take s.size).length := by
        rw [hbetween.size, h.size, List.length_append, Nat.sub_add_eq]
      have hrest : ¬ AllEnd es := by
        refine fun hall => hends fun d hd => ?_
        rcases List.mem_cons.mp hd with hd | hd
        · exact he d hd.symm
        · exact hall d hd
      have hle := shown_le e
      rw [List.length_take] at hleft
      exact hloop.trans (ih hpercent.2 hrest (reads_tail hreads) hbetween hfuel' (by omega))
    · rw [not_forall] at he
      obtain ⟨d, hnot⟩ := he
      obtain ⟨rfl, hd⟩ := Classical.not_imp.mp hnot
      exact directive_bounds hd hreads.1 h
        (Nat.lt_of_le_of_lt (Nat.le_add_right _ _) (htext ▸ hsize)) (by simp) hfuel

end Formats

/-! ## Agreement -/

/-- The width of a string, as an `int`, is enough for it, and the memory of `%.Ns` has a byte behind
those that are copied, or a NUL. -/
def Directive.Kept : Directive → Prop
  | string arg => arg.bytes.length ≤ escaped_len false arg.bytes % 2 ^ 32
  | precision n _ memory _ => 0 ∈ memory ∨ n < memory.length
  | number _ _ _ => True

/-- What is written is what C writes, in a buffer of any size. -/
def Agrees (es : List Element) : Prop :=
  ∀ (ap : Nat → va_arg) (size : Nat) (str : Bytes), Reads ap es 0 → 1 ≤ size → str.length = size →
    ∃ str', vsnprintf str size (format_of es) ap = .ok str' ∧
      cstring str' = .ok ((text_of_format es).take (size - 1))

theorem Directive.Kept.ends {d : Directive} (h : d.Kept) : d.Ends := by
  cases d with
  | precision m hm memory valid => exact h
  | _ => trivial

theorem kept_shown {d : Directive} (h : d.Kept) : d.shown = d.text := by
  cases d with
  | string arg => exact List.take_of_length_le h
  | _ => rfl

theorem kept_of_shown {d : Directive} (hends : d.Ends) (h : d.shown.length = d.text.length) :
    d.Kept := by
  cases d with
  | string arg =>
    have hlength : (arg.bytes.take (escaped_len false arg.bytes % 2 ^ 32)).length =
        arg.bytes.length := h
    rw [List.length_take] at hlength
    show arg.bytes.length ≤ escaped_len false arg.bytes % 2 ^ 32
    omega
  | precision m hm memory valid => exact hends
  | number length conversion value => trivial

theorem text_nulFree (es : List Element) : 0 ∉ text_of_format es := by
  intro hmem
  obtain ⟨e, -, he⟩ := List.mem_flatMap.mp hmem
  cases e with
  | literal c plain => exact plain.1 (List.mem_singleton.mp he).symm
  | percent => exact absurd he (by decide)
  | directive d =>
    cases d with
    | string arg => exact arg.nulFree he
    | precision m hm memory valid =>
      exact absurd (List.mem_takeWhile_imp (List.mem_of_mem_take he)) (by decide)
    | number length conversion value =>
      have hwidth : length.width ≤ 64 := by cases length <;> decide
      exact ((conversion_text conversion hwidth value).1 0 he).2 rfl

theorem shown_sub (es : List Element) : ∀ b ∈ shown_of_format es, b ∈ text_of_format es := by
  intro b hb
  obtain ⟨e, he, hb⟩ := List.mem_flatMap.mp hb
  refine List.mem_flatMap.mpr ⟨e, he, ?_⟩
  cases e with
  | directive d =>
    cases d with
    | string arg => exact List.mem_of_mem_take hb
    | _ => exact hb
  | _ => exact hb

/-- An argument as it is read. -/
def Directive.arg : Directive → va_arg
  | string arg => { int := 0, long := 0, pointer := 0, string := some arg.block }
  | precision _ _ memory _ => { int := 0, long := 0, pointer := 0, string := some memory }
  | number .none _ value => { int := value, long := 0, pointer := 0, string := none }
  | number .l _ value => { int := 0, long := value, pointer := 0, string := none }
  | number .ll _ value => { int := 0, long := value, pointer := 0, string := none }
  | number .z _ value => { int := 0, long := value, pointer := 0, string := none }

/-- The arguments of a format, and nothing behind them. -/
def arguments (es : List Element) (i : Nat) : va_arg :=
  (((es.filterMap Element.directive?).map Directive.arg)[i]?).getD
    { int := 0, long := 0, pointer := 0, string := none }

theorem directive_arg (d : Directive) : d.ReadBy d.arg := by
  cases d with
  | number length conversion value => cases length <;> rfl
  | _ => rfl

theorem reads_of_shift {ap : Nat → va_arg} {es : List Element} {i : Nat}
    (h : ∀ j, ap (i + j) = arguments es j) : Reads ap es i := by
  induction es generalizing i with
  | nil => trivial
  | cons e es ih =>
    cases e with
    | literal c plain => exact ih h
    | percent => exact ih h
    | directive d =>
      refine ⟨?_, ih fun j => ?_⟩
      · rw [show ap i = d.arg from h 0]
        exact directive_arg d
      · rw [Nat.add_assoc, Nat.add_comm 1 j, h (j + 1)]
        rfl

theorem arguments_read (es : List Element) : Reads (arguments es) es 0 :=
  reads_of_shift fun j => by rw [Nat.zero_add]

theorem start_between {str : Bytes} {size : Nat} (hstr : str.length = size) :
    Between size [] 0 (start str size) :=
  ⟨start_room hstr, rfl, rfl, rfl⟩

theorem format_output {es : List Element} (hpercent : .percent ∉ es) (hends : AllEnd es)
    {ap : Nat → va_arg} (hreads : Reads ap es 0) {size : Nat} (hsize : 1 ≤ size) {str : Bytes}
    (hstr : str.length = size) :
    ∃ s str', vsnprintf_loop ap (format_of es).block.length (format_of es).block (start str size) =
      .ok s ∧
      s.ap ≤ consumed es ∧ vsnprintf str size (format_of es) ap = .ok str' ∧
      cstring str' = .ok ((shown_of_format es).take (size - 1)) := by
  obtain ⟨s, hloop, hroom, hout, hap⟩ :=
    elements_written hpercent hends hreads (start_between hstr) le_rfl
  rw [List.nil_append] at hout
  have hnul : 0 ∉ s.out := by
    rw [hout]
    exact fun hmem => text_nulFree es (shown_sub es 0 (List.mem_of_mem_take hmem))
  have hloop : vsnprintf_loop ap (format_of es).block.length (format_of es).block (start str size) =
      .ok s := hloop
  obtain ⟨str', hrun, hcstring⟩ := vsnprintf_output hsize hloop hroom hnul
  have htake :
      ((shown_of_format es).take size).take (size - 1) = (shown_of_format es).take (size - 1) := by
    rw [List.take_take, Nat.min_eq_left (Nat.sub_le _ _)]
  refine ⟨s, str', hloop, by omega, hrun, ?_⟩
  rw [hcstring, hout]
  exact congrArg Except.ok htake

theorem format_bounds {es : List Element} (hpercent : .percent ∉ es) (hends : ¬ AllEnd es)
    {ap : Nat → va_arg} (hreads : Reads ap es 0) {size : Nat}
    (hsize : (text_of_format es).length < size) {str : Bytes} (hstr : str.length = size) :
    vsnprintf str size (format_of es) ap = .error .bounds := by
  have hloop := elements_bounds hpercent hends hreads (start_between hstr) le_rfl hsize
  show vsnprintf_loop ap (format_of es).block.length (format_of es).block (start str size) >>= _ = _
  rw [show (format_of es).block = es.flatMap Element.bytes ++ [0] from rfl, hloop]
  rfl

theorem shown_format_le (es : List Element) :
    (shown_of_format es).length ≤ (text_of_format es).length := by
  induction es with
  | nil => exact le_rfl
  | cons e es ih =>
    show (e.shown ++ shown_of_format es).length ≤ (e.text ++ text_of_format es).length
    rw [List.length_append, List.length_append]
    exact Nat.add_le_add (shown_le e) ih

theorem shown_lengths {es : List Element}
    (h : (shown_of_format es).length = (text_of_format es).length) :
    ∀ e ∈ es, e.shown.length = e.text.length := by
  induction es with
  | nil => exact fun e he => absurd he List.not_mem_nil
  | cons e es ih =>
    change (e.shown ++ shown_of_format es).length = (e.text ++ text_of_format es).length at h
    rw [List.length_append, List.length_append] at h
    have hfirst := shown_le e
    have hrest := shown_format_le es
    intro e' he'
    rcases List.mem_cons.mp he' with rfl | he'
    · omega
    · exact ih (by omega) e' he'

theorem kept_shown_format {es : List Element} (h : ∀ d, .directive d ∈ es → d.Kept) :
    shown_of_format es = text_of_format es := by
  refine List.flatMap_congr fun e he => ?_
  cases e with
  | directive d => exact kept_shown (h d he)
  | _ => rfl

/-- In a buffer that holds the whole text, whatever it was filled with. -/
theorem kept_of_output {es : List Element} (hpercent : .percent ∉ es) {ap : Nat → va_arg}
    (hreads : Reads ap es 0) {size : Nat} (hsize : (text_of_format es).length < size)
    {str str' : Bytes} (hstr : str.length = size)
    (hrun : vsnprintf str size (format_of es) ap = .ok str')
    (hout : cstring str' = .ok ((text_of_format es).take (size - 1))) :
    ∀ d, .directive d ∈ es → d.Kept := by
  have hends : AllEnd es := by
    by_contra hends
    rw [format_bounds hpercent hends hreads hsize hstr] at hrun
    exact absurd hrun (by simp)
  obtain ⟨s, str1, -, -, hrun1, hout1⟩ :=
    format_output hpercent hends hreads (Nat.one_le_of_lt hsize) hstr
  obtain rfl := Except.ok.inj (hrun.symm.trans hrun1)
  have htext : (text_of_format es).take (size - 1) = (shown_of_format es).take (size - 1) :=
    Except.ok.inj (hout.symm.trans hout1)
  have hlength : (shown_of_format es).length = (text_of_format es).length := by
    have hsame := congrArg List.length htext
    have hle := shown_format_le es
    rw [List.length_take, List.length_take] at hsame
    omega
  exact fun d hd => kept_of_shown (hends d hd) (shown_lengths hlength _ hd)

theorem output_of_kept {es : List Element} (hpercent : .percent ∉ es)
    (h : ∀ d, .directive d ∈ es → d.Kept) {ap : Nat → va_arg}
    (hreads : Reads ap es 0) {size : Nat} (hsize : 1 ≤ size) {str : Bytes}
    (hstr : str.length = size) :
    ∃ s str', vsnprintf_loop ap (format_of es).block.length (format_of es).block (start str size) =
      .ok s ∧
      s.ap ≤ consumed es ∧ vsnprintf str size (format_of es) ap = .ok str' ∧
      cstring str' = .ok ((text_of_format es).take (size - 1)) := by
  rw [← kept_shown_format h]
  exact format_output hpercent (fun d hd => (h d hd).ends) hreads hsize hstr

/-- For each list of arguments and each buffer that holds the whole text, the formatter agrees with
C exactly if its arguments are kept. A smaller buffer may hide the difference. -/
theorem format_agrees_iff {es : List Element} (hpercent : .percent ∉ es) {ap : Nat → va_arg}
    (hreads : Reads ap es 0) {size : Nat} (hsize : (text_of_format es).length < size) {str : Bytes}
    (hstr : str.length = size) :
    (∃ str', vsnprintf str size (format_of es) ap = .ok str' ∧
      cstring str' = .ok ((text_of_format es).take (size - 1))) ↔
    ∀ d, .directive d ∈ es → d.Kept := by
  constructor
  · rintro ⟨str', hrun, hout⟩
    exact kept_of_output hpercent hreads hsize hstr hrun hout
  · intro h
    obtain ⟨s, str', -, -, hrun, hout⟩ :=
      output_of_kept hpercent h hreads (Nat.one_le_of_lt hsize) hstr
    exact ⟨str', hrun, hout⟩

theorem kept_of_agrees {es : List Element} (hpercent : .percent ∉ es) (h : Agrees es) :
    ∀ d, .directive d ∈ es → d.Kept := by
  have hstr : (List.replicate ((text_of_format es).length + 1) (0 : Byte)).length =
      (text_of_format es).length + 1 := List.length_replicate
  exact (format_agrees_iff hpercent (arguments_read es) (Nat.lt_succ_self _) hstr).mp
    (h _ _ _ (arguments_read es) (Nat.le_add_left 1 _) hstr)

/-- **The formatter agrees with C** on what it has in common with it, in buffers of every size,
exactly if its arguments are kept. -/
theorem formats_agree_iff (es : List Element) (hpercent : .percent ∉ es) :
    Agrees es ↔ ∀ d, .directive d ∈ es → d.Kept := by
  refine ⟨kept_of_agrees hpercent, fun h ap size str hreads hsize hstr => ?_⟩
  obtain ⟨s, str', -, -, hrun, hout⟩ := output_of_kept hpercent h hreads hsize hstr
  exact ⟨str', hrun, hout⟩

/-- `"a%s%d"`, with a string of one byte and a number. -/
def short : List Element :=
  [.literal (ch 'a') (by decide), .directive (.string (.cut (ascii "b"))),
    .directive (.number .none .d 7)]

theorem formats_agree_short : Agrees short :=
  (formats_agree_iff short (by simp [short])).mpr fun d hd => by
    simp only [short, List.mem_cons, List.not_mem_nil, or_false, reduceCtorEq,
      Element.directive.injEq, false_or] at hd
    rcases hd with rfl | rfl
    · show (CString.cut (ascii "b")).bytes.length ≤
        escaped_len false (CString.cut (ascii "b")).bytes % 2 ^ 32
      decide
    · trivial

/-- A gigabyte of spaces has a width of zero. -/
theorem formats_not_always_agree : ¬ ∀ es, .percent ∉ es → Agrees es := by
  intro h
  have hnul : (0 : Byte) ∉ List.replicate (2 ^ 30) (ch ' ') :=
    fun hmem => absurd (List.eq_of_mem_replicate hmem) (by decide)
  have hwidth : escaped_len false (List.replicate (2 ^ 30) (ch ' ')) = 2 ^ 32 := by
    rw [escaped_len, List.map_replicate, List.sum_replicate]
    rfl
  have hlength : (List.replicate (2 ^ 30) (ch ' ')).length = 2 ^ 30 := List.length_replicate
  generalize List.replicate (2 ^ 30) (ch ' ') = spaces at hnul hwidth hlength
  have hpercent : Element.percent ∉ [.directive (.string ⟨spaces, hnul⟩)] := by simp
  have hkept : spaces.length ≤ escaped_len false spaces % 2 ^ 32 :=
    kept_of_agrees hpercent (h _ hpercent) (.string ⟨spaces, hnul⟩) List.mem_cons_self
  rw [hwidth, hlength] at hkept
  exact absurd hkept (by decide)

/-! ## Precisions from the arguments -/

/-- `"%.*s"` -/
def star_format : CString := ⟨ascii "%.*s", by decide⟩

/-- A precision, and a pointer to memory. -/
def star_args (n : Nat) (memory : Bytes) (_ : Nat) : va_arg where
  int := BitVec.ofNat 32 n
  long := 0
  pointer := 0
  string := some memory

/-- The bytes of the array before its first NUL, or its first `n` bytes. -/
def precise (n : Nat) (array : Bytes) : Bytes := (array.take n).takeWhile (· != 0)

/-- They are what is written, whatever is behind the first `n` bytes, or if nothing is. -/
def Precise (n : Nat) (array : Bytes) (size : Nat) (str : Bytes) : Prop :=
  ∀ memory, memory.take n = array.take n →
    ∃ str', vsnprintf str size star_format (star_args n memory) = .ok str' ∧
    cstring str' = .ok (precise n array)

section Star

variable {n size : Nat} {array memory str : Bytes}

theorem star_loop (hn : n < 2 ^ 31) (hsize : size ≠ 0) :
    vsnprintf_loop (star_args n memory) star_format.block.length star_format.block
      (start str size) =
      print_arg { (start str size).opened with block_len := n, ap := 2 } (ch 's') (some memory) >>=
        vsnprintf_loop (star_args n memory) 1 [0] := by
  have hint : (BitVec.ofNat 32 n).toInt = n := by
    rw [BitVec.toInt_ofNat']
    exact wrap_of_fits (by omega) (by omega)
  have hdot : directive (star_args n memory) (start str size).opened (ch '.') =
      .ok (start str size).opened := rfl
  have hstar : directive (star_args n memory) (start str size).opened (ch '*') =
      .ok { (start str size).opened with block_len := n, ap := 1 } := by
    show (pure { (start str size).opened with block_len := (BitVec.ofNat 32 n).toInt, ap := 1 } :
      C vsnprintf_t) = _
    rw [hint]
    rfl
  show vsnprintf_loop _ (4 + 1) (ch '%' :: ch '.' :: ch '*' :: ch 's' :: [0]) (start str size) = _
  rw [loop_percent rfl hsize,
    loop_directive (s := (start str size).opened) rfl hsize (by decide) (by decide), hdot, ok_bind,
    loop_directive (s := (start str size).opened) rfl hsize (by decide) (by decide), hstar, ok_bind,
    loop_directive (s := { (start str size).opened with block_len := n, ap := 1 }) rfl hsize
      (by decide) (by decide)]
  rfl

theorem star_output (hn : n < 2 ^ 31) (hpos : 1 ≤ n) (hnul : 0 ∈ memory) (hsize : 1 ≤ size)
    (hstr : str.length = size) :
    ∃ str', vsnprintf str size star_format (star_args n memory) = .ok str' ∧
      cstring str' = .ok (((memory.takeWhile (· != 0)).take n).take (size - 1)) := by
  have hroom : Room size 0 { (start str size).opened with block_len := n, ap := 2 } :=
    ⟨hstr, Nat.zero_add size, Nat.zero_le _⟩
  obtain ⟨s', hprint, hbetween⟩ := precision_print ⟨hpos, hn⟩ rfl hroom rfl (.inl hnul)
  have hloop :
      vsnprintf_loop (star_args n memory) star_format.block.length star_format.block
        (start str size) = .ok s' := by
    rw [star_loop hn (by omega), hprint, ok_bind]
    exact loop_end (.inl rfl)
  have hout : s'.out = ((memory.takeWhile (· != 0)).take n).take size := hbetween.out
  have hfree : 0 ∉ s'.out := by
    rw [hout]
    exact fun hmem =>
      absurd (List.mem_takeWhile_imp (List.mem_of_mem_take (List.mem_of_mem_take hmem))) (by decide)
  obtain ⟨str', hrun, hcstring⟩ := vsnprintf_output hsize hloop hbetween.room hfree
  refine ⟨str', hrun, ?_⟩
  rw [hcstring, hout, List.take_take, Nat.min_eq_left (Nat.sub_le _ _)]

/-- The loop tests the byte behind the last one before the count, and a count of zero is none at
all. -/
theorem star_bounds (hn : n < 2 ^ 31) (hmemory : memory.length = n) (hnul : 0 ∉ memory)
    (hsize : n < size) (hstr : str.length = size) :
    vsnprintf str size star_format (star_args n memory) = .error .bounds := by
  have hroom : Room size 0 { (start str size).opened with block_len := n, ap := 2 } :=
    ⟨hstr, Nat.zero_add size, Nat.zero_le _⟩
  have hprint :
      print_arg { (start str size).opened with block_len := n, ap := 2 } (ch 's') (some memory) =
      .error .bounds := by
    rcases Nat.eq_zero_or_pos n with rfl | hpos
    · rw [List.eq_nil_of_length_eq_zero hmemory]
      rfl
    · refine precision_print_bounds ⟨hpos, hn⟩ rfl hroom ?_
      show ¬ (0 ∈ memory ∨ min size n < memory.length)
      rw [Nat.min_eq_right hsize.le, hmemory]
      exact fun hend => hend.elim hnul (lt_irrefl n)
  have hloop :
      vsnprintf_loop (star_args n memory) star_format.block.length star_format.block
        (start str size) = .error .bounds := by
    rw [star_loop hn (by omega), hprint]
    rfl
  show vsnprintf_loop (star_args n memory) star_format.block.length star_format.block
    (start str size) >>= _ = _
  rw [hloop]
  rfl

end Star

theorem precise_eq {n : Nat} {array memory : Bytes} (hnul : 0 ∈ array.take n)
    (hmemory : memory.take n = array.take n) :
    memory.takeWhile (· != 0) = precise n array := by
  obtain ⟨u, v, huv⟩ := List.append_of_mem hnul
  have hall : memory = u ++ 0 :: (v ++ memory.drop n) := by
    calc memory = memory.take n ++ memory.drop n := (List.take_append_drop n memory).symm
      _ = u ++ 0 :: (v ++ memory.drop n) := by rw [hmemory, huv]; simp
  rw [precise, huv, takeWhile_nul, hall, takeWhile_nul]

/-- **A precision bounds what is written and read** exactly if there is a NUL before it. -/
theorem star_precise_iff {n : Nat} (hn : n < 2 ^ 31) {array : Bytes}
    (harray : n ≤ array.length) {size : Nat} (hsize : (precise n array).length < size) {str : Bytes}
    (hstr : str.length = size) :
    Precise n array size str ↔ 0 ∈ array.take n := by
  have hlength : (array.take n).length = n := List.length_take_of_le harray
  constructor
  · intro h
    by_contra hnul
    have hwhole : precise n array = array.take n := List.takeWhile_eq_self_iff.mpr (all_ne hnul)
    obtain ⟨str', hrun, -⟩ := h (array.take n) (by rw [List.take_take, Nat.min_self])
    rw [hwhole, hlength] at hsize
    rw [star_bounds hn hlength hnul hsize hstr] at hrun
    exact absurd hrun (by simp)
  · intro hnul memory hmemory
    have hpos : 1 ≤ n := by
      rcases Nat.eq_zero_or_pos n with rfl | hpos
      · exact absurd hnul (by simp)
      · exact hpos
    have hle : (precise n array).length ≤ n := (List.takeWhile_sublist _).length_le.trans hlength.le
    obtain ⟨str', hrun, hout⟩ :=
      star_output hn hpos (List.mem_of_mem_take (hmemory ▸ hnul)) (by omega) hstr
    refine ⟨str', hrun, ?_⟩
    rw [hout, precise_eq hnul hmemory, List.take_of_length_le hle,
      List.take_of_length_le (by omega)]

theorem star_precise_short : Precise 3 (ascii "ab" ++ [0, 1]) 9 (List.replicate 9 1) :=
  (star_precise_iff (by decide) (by decide) (by decide) rfl).mpr (by decide)

/-- Two bytes without a NUL. -/
theorem star_not_always_precise :
    ¬ ∀ (n : Nat) (array : Bytes) (size : Nat) (str : Bytes), n < 2 ^ 31 → n ≤ array.length →
    (precise n array).length < size → str.length = size → Precise n array size str := by
  intro h
  obtain ⟨str', hrun, -⟩ :=
    h 2 (ascii "ab") 9 (List.replicate 9 1) (by decide) (by decide) (by decide) rfl (ascii "ab") rfl
  have hbounds : vsnprintf (List.replicate 9 1) 9 star_format (star_args 2 (ascii "ab")) =
      .error .bounds :=
    star_bounds (by decide) rfl (by decide) (by decide) rfl
  exact absurd (hbounds.symm.trans hrun) (by simp)

end Log
