import IcecastCommon.Log.Written

/-!
# Escapes

What `%H` writes: which bytes, when it ends with its quote, what its escapes denote, and where the
end of the buffer cuts one off.
-/

namespace Log

open Lib vsnprintf_t

/-! ## The text, one byte after the other -/

/-- A byte in a block without room for an escape. -/
def dotted (space : Bool) (c : Byte) : Byte := if vsnprintf_is_print c space then c else ch '.'

section Render

variable {space : Bool} {c : Byte} {text : Bytes} {room p : Nat} {len : Int}

@[simp] theorem render_nil : render space [] room len = [] := rfl

@[simp] theorem render_no_room : render space text 0 len = [] := List.eq_nil_of_length_eq_zero
  (Nat.le_zero.mp (render_length space text 0 len))

@[simp] theorem render_no_width : render space text room 0 = [] := by
  cases text with
  | nil => rfl
  | cons c text =>
    unfold render
    rw [if_pos (.inl rfl)]

theorem render_printed (hprint : vsnprintf_is_print c space = true) (hroom : 0 < room)
    (hlen : len ≠ 0) :
    render space (c :: text) room len = c :: render space text (room - 1) (to_int (len - 1)) := by
  rw [render, if_neg (not_or.mpr ⟨hlen, hroom.ne'⟩), piece, if_pos hprint]
  rfl

theorem render_dot (hprint : ¬ vsnprintf_is_print c space = true) (hroom : 0 < room)
    (hlen : len ≠ 0) (hshort : room < 4 ∨ len < 4) :
    render space (c :: text) room len =
      ch '.' :: render space text (room - 1) (to_int (len - 1)) := by
  rw [render, if_neg (not_or.mpr ⟨hlen, hroom.ne'⟩), piece, if_neg hprint, if_pos hshort]
  rfl

theorem render_escape (hprint : ¬ vsnprintf_is_print c space = true) (hroom : 4 ≤ room)
    (hlen : 4 ≤ len) :
    render space (c :: text) room len =
      escape_of c ++ render space text (room - 4) (to_int (len - 4)) := by
  rw [render, if_neg (not_or.mpr ⟨by omega, by omega⟩), piece, if_neg hprint, if_neg (by omega)]
  rfl

theorem to_int_nat_sub {k : Nat} (hk : k ≤ p) (hp : p < 2 ^ 31) :
    to_int ((p : Int) - k) = ((p - k : Nat) : Int) := by
  rw [to_int_of_fits (by omega) (by omega)]
  omega

/-- As long as the width is negative, every byte takes one. -/
theorem render_negative (hlen : -2 ^ 31 ≤ len) (hneg : len < 0) :
    render space text room len =
      ((text.take (len + 2 ^ 31 + 1).toNat).map (dotted space)).take room ++
      render space (text.drop (len + 2 ^ 31 + 1).toNat) (room - (len + 2 ^ 31 + 1).toNat)
        (2 ^ 31 - 1) := by
  induction text generalizing room len with
  | nil => simp
  | cons c text ih =>
    obtain ⟨m, hm⟩ : ∃ m, (len + 2 ^ 31 + 1).toNat = m + 1 := ⟨(len + 2 ^ 31).toNat, by omega⟩
    rcases Nat.eq_zero_or_pos room with rfl | hroom
    · simp
    obtain ⟨room, rfl⟩ : ∃ r, room = r + 1 := ⟨room - 1, by omega⟩
    have hfirst :
        render space (c :: text) (room + 1) len =
        dotted space c :: render space text room (to_int (len - 1)) := by
      unfold dotted
      split_ifs with hprint
      · exact render_printed hprint hroom hneg.ne
      · exact render_dot hprint hroom hneg.ne (.inr (by omega))
    have hrest : render space text room (to_int (len - 1)) =
        ((text.take m).map (dotted space)).take room ++
          render space (text.drop m) (room - m) (2 ^ 31 - 1) := by
      rcases eq_or_lt_of_le hlen with hmin | hlt
      · -- The width wraps around.
        have hwrap : to_int (len - 1) = 2 ^ 31 - 1 := by
          rw [← hmin]
          decide
        obtain rfl : m = 0 := by omega
        rw [hwrap]
        simp
      · have hnext : to_int (len - 1) = len - 1 := to_int_of_fits (by omega) (by omega)
        have hm' : (len - 1 + 2 ^ 31 + 1).toNat = m := by omega
        rw [hnext, ih (by omega) (by omega), hm']
    rw [hfirst, hrest, hm]
    simp

/-- The bytes that are written while the width is negative. -/
def negative_len (len : Int) : Nat := if len < 0 then (len + 2 ^ 31 + 1).toNat else 0

/-- The width once it is not negative anymore. -/
def positive_len (len : Int) : Nat := if len < 0 then 2 ^ 31 - 1 else len.toNat

theorem positive_len_lt (hhigh : len < 2 ^ 31) : positive_len len < 2 ^ 31 := by
  unfold positive_len
  split_ifs <;> omega

/-- Before the width is positive, there are no escapes. -/
theorem render_phases (hlow : -2 ^ 31 ≤ len) :
    render space text room len = ((text.take (negative_len len)).map (dotted space)).take room ++
      render space (text.drop (negative_len len)) (room - negative_len len) (positive_len len) := by
  unfold negative_len positive_len
  split_ifs with hneg
  · exact render_negative hlow hneg
  · rw [Int.toNat_of_nonneg (Int.not_lt.mp hneg)]
    simp

theorem render_le_escaped : (render space text room len).length ≤ escaped_len space text := by
  induction text generalizing room len with
  | nil => exact Nat.zero_le _
  | cons c text ih =>
    unfold render
    split_ifs with hend
    · exact Nat.zero_le _
    have hpiece : (piece space room len c).length ≤ if vsnprintf_is_print c space then
        1 else 4 := by
      unfold piece
      split_ifs <;> simp [escape_of]
    have hrest :=
      @ih (room - (piece space room len c).length) (to_int (len - (piece space room len c).length))
    rw [List.length_append, escaped_len_cons]
    omega

end Render

/-! ## Bytes -/

/-- No quote, no backtick, and a space only where it is allowed. -/
def Clean (space : Bool) (b : Byte) : Prop :=
  0x20 ≤ b ∧ b ≤ 0x7f ∧ b ≠ ch '`' ∧ b ≠ ch '"' ∧ (b = ch ' ' → space = true)

theorem clean_of_print {c : Byte} {space : Bool} (h : vsnprintf_is_print c space = true) :
    Clean space c := by
  have hall : ∀ c, ∀ space, vsnprintf_is_print c space = true → Clean space c := by
    refine forall_byte ?_
    unfold Clean
    decide +kernel
  exact hall c space h

theorem clean_digit (space : Bool) {d : Nat} (hd : d < 16) : Clean space (hexDigit d) := by
  have hall : ∀ d : Fin 16, ∀ space, Clean space (hexDigit d) := by
    unfold Clean
    decide
  exact hall ⟨d, hd⟩ space

theorem clean_escape (space : Bool) (c : Byte) : ∀ b ∈ escape_of c, Clean space b := by
  have hfixed : ∀ space, Clean space (ch '\\') ∧ Clean space (ch 'x') := by
    unfold Clean
    decide
  have hbyte := c.toNat_lt
  intro b hb
  simp only [escape_of, List.mem_cons, List.not_mem_nil, or_false] at hb
  rcases hb with rfl | rfl | rfl | rfl
  · exact (hfixed space).1
  · exact (hfixed space).2
  · exact clean_digit space (Nat.mod_lt _ (by decide))
  · exact clean_digit space (by omega)

theorem clean_dot (space : Bool) : Clean space (ch '.') :=
  clean_of_print (by cases space <;> decide)

theorem render_clean (space : Bool) (text : Bytes) (room : Nat) (len : Int) :
    ∀ b ∈ render space text room len, Clean space b := by
  induction text generalizing room len with
  | nil => exact fun b hb => absurd hb List.not_mem_nil
  | cons c text ih =>
    unfold render
    split_ifs with hend
    · exact fun b hb => absurd hb List.not_mem_nil
    intro b hb
    rcases List.mem_append.mp hb with hb | hb
    · unfold piece at hb
      split_ifs at hb with hprint hshort
      · rw [List.mem_singleton.mp hb]
        exact clean_of_print hprint
      · rw [List.mem_singleton.mp hb]
        exact clean_dot space
      · exact clean_escape space c b hb
    · exact ih _ _ b hb

theorem clean_ne_nul {space : Bool} {b : Byte} (h : Clean space b) : b ≠ 0 := by
  rintro rfl
  exact absurd h.1 (by decide)

theorem quotation_bytes {alt : Bool} {room : Nat} {len : Int} :
    ∀ b ∈ quotation alt room len, b = ch '"' ∧ alt = true := by
  unfold quotation
  intro b hb
  split_ifs at hb with hquote
  · exact ⟨List.mem_singleton.mp hb, hquote.1⟩
  · exact absurd hb List.not_mem_nil

theorem text_of_H_nulFree (alt space : Bool) (room : Nat) (len : Int) (arg : Option Bytes) :
    0 ∉ text_of_H alt space room len arg := by
  intro hmem
  match arg with
  | none =>
    unfold text_of_H at hmem
    split_ifs at hmem
    · exact absurd (List.mem_singleton.mp hmem) (by decide)
    · exact absurd hmem List.not_mem_nil
  | some text =>
    rcases List.mem_append.mp hmem with hmem | hclosing
    · rcases List.mem_append.mp hmem with hopening | hbody
      · exact absurd (quotation_bytes 0 hopening).1 (by decide)
      · exact clean_ne_nul (render_clean space text _ _ 0 hbody) rfl
    · exact absurd (quotation_bytes 0 hclosing).1 (by decide)

/-! ## One directive -/

inductive Flag where
  | alt
  | space
deriving DecidableEq

def Flag.char : Flag → Byte
  | .alt => ch '#'
  | .space => ch ' '

inductive Width where
  | none
  | number (n : Nat)
  | star
deriving DecidableEq

def Width.bytes : Width → Bytes
  | none => []
  | number n => decimal n
  | star => [ch '*']

/-- A format that is one directive of `%H`. -/
structure H where
  flags : List Flag
  width : Width

namespace H

def format (d : H) : Bytes := ch '%' :: (d.flags.map Flag.char ++ (d.width.bytes ++ [ch 'H']))

def alt (d : H) : Bool := Flag.alt ∈ d.flags

def space (d : H) : Bool := Flag.space ∈ d.flags

/-- The width that is given, or zero. -/
def given (d : H) (ap : Nat → va_arg) : Int :=
  match d.width with
  | .none => 0
  | .number n => width_value n
  | .star => (ap 0).int.toInt

/-- The arguments in front of the pointer. -/
def taken (d : H) : Nat := if d.width = .star then 1 else 0

/-- The pointer that is printed. -/
def pointer (d : H) (ap : Nat → va_arg) : Option Bytes := (ap d.taken).string

/-- What is printed: the string there, or what stands for a null pointer. -/
def arg (d : H) (ap : Nat → va_arg) : Option Bytes :=
  named d.alt ((d.pointer ap).map (·.takeWhile (· != 0)))

/-- The width of the block. -/
def len (d : H) (ap : Nat → va_arg) : Int :=
  width_of (d.given ap) (whole_len d.alt d.space (d.arg ap))

/-- The text in a buffer with `room` bytes. -/
def text (d : H) (ap : Nat → va_arg) (room : Nat) : Bytes :=
  text_of_H d.alt d.space room (d.len ap) (d.arg ap)

theorem format_nulFree (d : H) : 0 ∉ d.format := by
  have hflags : (0 : Byte) ∉ d.flags.map Flag.char := by
    intro hmem
    obtain ⟨flag, -, hflag⟩ := List.mem_map.mp hmem
    cases flag <;> exact absurd hflag (by decide)
  have hwidth : (0 : Byte) ∉ d.width.bytes := by
    cases d.width with
    | none => exact List.not_mem_nil
    | number n => exact fun hmem => absurd (decimal_digits n 0 hmem) (by decide)
    | star => decide
  unfold format
  simp only [List.mem_cons, List.mem_append, List.not_mem_nil, or_false, not_or]
  exact ⟨by decide, hflags, hwidth, by decide⟩

def cformat (d : H) : CString := ⟨d.format, d.format_nulFree⟩

end H

section Directive

variable {n : Nat} {s : vsnprintf_t} {ap : Nat → va_arg} {fuel : Nat} {rest : Bytes}

theorem loop_flags (hblock : s.in_block = true) (hsize : s.size ≠ 0) (flags : List Flag) :
    vsnprintf_loop ap (fuel + flags.length) (flags.map Flag.char ++ rest) s =
      vsnprintf_loop ap fuel rest
        { s with
          block_alt := s.block_alt || decide (Flag.alt ∈ flags)
          block_space := s.block_space || decide (Flag.space ∈ flags) } := by
  induction flags generalizing s with
  | nil => simp
  | cons flag flags ih =>
    rw [List.map_cons, List.cons_append, List.length_cons, ← Nat.add_assoc]
    cases flag with
    | alt =>
      rw [Flag.char, loop_directive hblock hsize (by decide) (by decide)]
      show vsnprintf_loop ap (fuel + flags.length) (flags.map Flag.char ++ rest) { s with
        block_alt := true } = _
      rw [ih (s := { s with block_alt := true }) hblock hsize]
      simp
    | space =>
      rw [Flag.char, loop_directive hblock hsize (by decide) (by decide)]
      show vsnprintf_loop ap (fuel + flags.length) (flags.map Flag.char ++ rest) { s with
        block_space := true } = _
      rw [ih (s := { s with block_space := true }) hblock hsize]
      simp

theorem loop_width (d : H) (hblock : s.in_block = true) (hsize : s.size ≠ 0)
    (hlen : s.block_len = 0) (hap : s.ap = 0) (hrest : rest.head?.any isdigit = false)
    (hnul : 0 ∈ rest) :
    ∃ fuel' ≥ fuel, vsnprintf_loop ap (fuel + d.width.bytes.length) (d.width.bytes ++ rest) s =
      vsnprintf_loop ap fuel' rest { s with block_len := d.given ap, ap := d.taken } := by
  unfold H.given H.taken
  cases hwidth : d.width with
  | none =>
    refine ⟨fuel, le_rfl, ?_⟩
    rw [if_neg (by simp), ← hap]
    show _ = vsnprintf_loop ap fuel rest { s with block_len := 0, ap := s.ap }
    rw [← hlen]
    rfl
  | number n =>
    rw [if_neg (by simp), ← hap]
    rcases Nat.eq_zero_or_pos n with rfl | hn
    · -- The switch has no case for a zero.
      have hzero : width_value 0 = 0 := by decide
      refine ⟨fuel, le_rfl, ?_⟩
      show vsnprintf_loop ap (fuel + 1) (ch '0' :: rest) s =
        vsnprintf_loop ap fuel rest { s with block_len := width_value 0, ap := s.ap }
      rw [loop_directive hblock hsize (by decide) (by decide), hzero, ← hlen]
      rfl
    · obtain ⟨b, tail, hdecimal, -⟩ := decimal_head hn
      have hlength : (Width.number n).bytes.length = tail.length + 1 :=
        congrArg List.length hdecimal
      refine ⟨fuel + tail.length, Nat.le_add_right _ _, ?_⟩
      rw [hlength, ← Nat.add_assoc]
      exact loop_number hblock hsize hn hrest hnul
  | star =>
    refine ⟨fuel, le_rfl, ?_⟩
    show vsnprintf_loop ap (fuel + 1) (ch '*' :: rest) s = _
    rw [loop_directive hblock hsize (by decide) (by decide), if_pos rfl]
    show vsnprintf_loop ap fuel rest { s with block_len := (ap s.ap).int.toInt, ap := s.ap + 1 } = _
    rw [hap]

theorem width_value_fits (n : Nat) : to_int (width_value n) = width_value n := Int.bmod_bmod

theorem H.given_fits (d : H) (ap : Nat → va_arg) : to_int (d.given ap) = d.given ap := by
  unfold H.given
  split
  · rfl
  · exact width_value_fits _
  · have hle := BitVec.le_toInt (ap 0).int
    have hlt := BitVec.toInt_lt (x := (ap 0).int)
    exact to_int_of_fits (by omega) (by omega)

/-- The memory of the string that is printed ends with it. -/
def H.Terminated (d : H) (ap : Nat → va_arg) : Prop :=
  ∀ block, d.pointer ap = some block → 0 ∈ block

/-- The state in front of the `H`. -/
def H.ready (d : H) (ap : Nat → va_arg) (s : vsnprintf_t) : vsnprintf_t :=
  { s with
    in_block := true, block_size := 0, block_len := d.given ap, block_space := d.space
    block_alt := d.alt, ap := d.taken }

theorem loop_ready (ap : Nat → va_arg) (d : H) (hblock : s.in_block = false) (hsize : s.size ≠ 0)
    (hs : s.ap = 0) :
    ∃ fuel ≥ 2, vsnprintf_loop ap d.cformat.block.length d.cformat.block s =
      vsnprintf_loop ap fuel (ch 'H' :: [0]) (d.ready ap s) := by
  have hbytes :
      d.cformat.block = ch '%' :: (d.flags.map Flag.char ++ (d.width.bytes ++ ch 'H' :: [0])) := by
    simp [CString.block, H.cformat, H.format]
  have hlength : d.cformat.block.length = 2 + d.width.bytes.length + d.flags.length + 1 := by
    rw [hbytes]
    simp only [List.length_cons, List.length_append, List.length_map, List.length_nil]
    omega
  obtain ⟨s1, hs1⟩ : ∃ s1, s1 = { s.opened with block_alt := d.alt, block_space := d.space } :=
    ⟨_, rfl⟩
  have hflags {fuel : Nat} {rest : Bytes} :
      vsnprintf_loop ap (fuel + d.flags.length) (d.flags.map Flag.char ++ rest) s.opened =
        vsnprintf_loop ap fuel rest s1 := by
    rw [loop_flags (s := s.opened) rfl hsize, hs1]
    simp only [vsnprintf_t.opened, Bool.false_or]
    rfl
  have hready : { s1 with block_len := d.given ap, ap := d.taken } = d.ready ap s := by
    rw [hs1]
    rfl
  rw [hlength, hbytes, loop_percent hblock hsize, hflags, ← hready]
  subst hs1
  exact loop_width d rfl hsize rfl hs (by decide) (by simp)

theorem loop_H (d : H) (hap : d.Terminated ap) (h : Room n 0 s) (hblock : s.in_block = false)
    (hsize : s.size ≠ 0) (hs : s.ap = 0) :
    ∃ s', vsnprintf_loop ap d.cformat.block.length d.cformat.block s = .ok s' ∧ Room n 0 s' ∧
      s'.out = s.out ++ d.text ap s.size := by
  obtain ⟨fuel, hfuel, hready⟩ := loop_ready ap d hblock hsize hs
  obtain ⟨fuel, rfl⟩ : ∃ k, fuel = k + 1 + 1 := ⟨fuel - 2, by omega⟩
  have hroom : Room n 0 { d.ready ap s with ap := d.taken + 1 } := ⟨h.line, h.size, h.fits⟩
  have hlen : d.len ap = width_of (d.given ap) (whole_len d.alt d.space (d.arg ap)) := rfl
  have hprint : directive ap (d.ready ap s) (ch 'H') = _ :=
    print_arg_H hap hroom (d.given_fits ap) hlen
  have htext : (d.text ap s.size).length ≤ s.size := text_of_H_length _ _ _ _ _
  have hclosed : Room n 0 ({ d.ready ap s with ap := d.taken + 1 }.closed (d.len ap)) :=
    ⟨h.line, h.size, h.fits⟩
  refine ⟨_, ?_, written_room hclosed htext, written_out hclosed _⟩
  rw [hready, loop_directive (s := d.ready ap s) rfl hsize (by decide) (by decide), hprint, ok_bind]
  exact loop_end (.inl rfl)

/-- **One directive of `%H`** leaves its text in the buffer, except for what is on the last byte. -/
theorem H_output (d : H) (hap : d.Terminated ap) {size : Nat} (hsize : 1 ≤ size) {str : Bytes}
    (hstr : str.length = size) :
    ∃ str', vsnprintf str size d.cformat ap = .ok str' ∧
      cstring str' = .ok ((d.text ap size).take (size - 1)) := by
  obtain ⟨s', hloop, hroom, hout⟩ := loop_H d hap (start_room hstr) rfl (Nat.ne_of_gt hsize) rfl
  have htext : s'.out = d.text ap size := hout
  have hnul : 0 ∉ s'.out := by
    rw [htext]
    exact text_of_H_nulFree _ _ _ _ _
  obtain ⟨str', hrun, hcstring⟩ := vsnprintf_output hsize hloop hroom hnul
  refine ⟨str', hrun, ?_⟩
  rw [hcstring, htext]

end Directive

/-! ## Quotes -/

/-- Only the bytes that a line of the log may have, and quotes only around the text. -/
structure Harmless (d : H) (out : Bytes) : Prop where
  bytes : ∀ b ∈ out, 0x20 ≤ b ∧ b ≤ 0x7f ∧ b ≠ ch '`' ∧ (b = ch ' ' → d.space = true)
  quotes : ∀ i, out[i]? = some (ch '"') → d.alt = true ∧ (i = 0 ∨ i + 1 = out.length)

/-- The text begins and ends with a quote. -/
def Enclosed (out : Bytes) : Prop := out.head? = some (ch '"') ∧ out.getLast? = some (ch '"')

/-- The text takes less than `p` bytes. Only the last three of these have no room for an escape. -/
def Fits (space : Bool) (text : Bytes) (p : Nat) : Prop :=
  ∃ u v, text = u ++ v ∧ escaped_len space u + v.length < p ∧ (v = [] ∨ p ≤ escaped_len space u + 3)

/-- The width of the block, as an `int`, is enough for the text and both quotes. -/
def Encloses (space : Bool) (text : Bytes) : Prop :=
  let width := text_len true space text % 2 ^ 32
  width = 1 ∨ if width < 2 ^ 31 then Fits space text (width - 1)
    else Fits space (text.drop (width - 2 ^ 31)) (2 ^ 31 - 1)

theorem Harmless.take {d : H} {out : Bytes} (h : Harmless d out) (k : Nat) :
    Harmless d (out.take k) := by
  refine ⟨fun b hb => h.bytes b (List.mem_of_mem_take hb), fun i hi => ?_⟩
  rw [List.getElem?_take] at hi
  split_ifs at hi with hk
  obtain ⟨halt, hplace⟩ := h.quotes i hi
  refine ⟨halt, hplace.imp_right fun hlast => ?_⟩
  rw [List.length_take]
  omega

theorem clean_harmless {d : H} {out : Bytes} (h : ∀ b ∈ out, Clean d.space b) : Harmless d out := by
  constructor
  · intro b hb
    obtain ⟨hlow, hhigh, htick, -, hspace⟩ := h b hb
    exact ⟨hlow, hhigh, htick, hspace⟩
  · intro i hi
    exact absurd rfl (h _ (List.mem_of_getElem? hi)).2.2.2.1

theorem quoted_harmless (d : H) {opening body closing : Bytes} (hbody : ∀ b ∈ body, Clean d.space b)
    (hopening : opening.length ≤ 1 ∧ ∀ b ∈ opening, b = ch '"' ∧ d.alt = true)
    (hclosing : closing.length ≤ 1 ∧ ∀ b ∈ closing, b = ch '"' ∧ d.alt = true) :
    Harmless d (opening ++ body ++ closing) := by
  have hquote : 0x20 ≤ ch '"' ∧ ch '"' ≤ 0x7f ∧ ch '"' ≠ ch '`' ∧ ch '"' ≠ ch ' ' := by decide
  have hbytes {b : Byte} (hb : b = ch '"') :
      0x20 ≤ b ∧ b ≤ 0x7f ∧ b ≠ ch '`' ∧ (b = ch ' ' → d.space = true) := by
    subst hb
    exact ⟨hquote.1, hquote.2.1, hquote.2.2.1, fun h => absurd h hquote.2.2.2⟩
  constructor
  · intro b hb
    rw [List.mem_append, List.mem_append] at hb
    rcases hb with (hb | hb) | hb
    · exact hbytes (hopening.2 b hb).1
    · obtain ⟨hlow, hhigh, htick, -, hspace⟩ := hbody b hb
      exact ⟨hlow, hhigh, htick, hspace⟩
    · exact hbytes (hclosing.2 b hb).1
  · intro i hi
    rw [List.getElem?_append] at hi
    split_ifs at hi with hfront
    · rw [List.getElem?_append] at hi
      split_ifs at hi with hfirst
      · exact ⟨(hopening.2 _ (List.mem_of_getElem? hi)).2, .inl (by omega)⟩
      · exact absurd rfl (hbody _ (List.mem_of_getElem? hi)).2.2.2.1
    · obtain ⟨hlt, -⟩ := List.getElem?_eq_some_iff.mp hi
      refine ⟨(hclosing.2 _ (List.mem_of_getElem? hi)).2, .inr ?_⟩
      rw [List.length_append]
      omega

theorem quotation_le_one (alt : Bool) (room : Nat) (len : Int) :
    (quotation alt room len).length ≤ 1 := by
  unfold quotation
  split_ifs <;> simp

theorem text_harmless (d : H) (ap : Nat → va_arg) (room : Nat) : Harmless d (d.text ap room) := by
  unfold H.text
  match d.arg ap with
  | none =>
    refine clean_harmless fun b hb => ?_
    unfold text_of_H at hb
    split_ifs at hb
    · rw [List.mem_singleton.mp hb]
      exact clean_of_print (by cases d.space <;> decide)
    · exact absurd hb List.not_mem_nil
  | some text =>
    exact quoted_harmless d (render_clean d.space text _ _)
      ⟨quotation_le_one _ _ _, quotation_bytes⟩
      ⟨quotation_le_one _ _ _, quotation_bytes⟩

section Fits

variable {space : Bool} {c : Byte} {text : Bytes} {p : Nat}

theorem not_fits_zero : ¬ Fits space text 0 := by
  rintro ⟨u, v, -, hlt, -⟩
  exact absurd hlt (Nat.not_lt_zero _)

theorem fits_nil : Fits space [] p ↔ 0 < p := by
  constructor
  · rintro ⟨u, v, -, hlt, -⟩
    omega
  · exact fun hp => ⟨[], [], rfl, hp, .inl rfl⟩

theorem fits_printed (hprint : vsnprintf_is_print c space = true) :
    Fits space (c :: text) p ↔ Fits space text (p - 1) := by
  constructor
  · rintro ⟨u, v, htext, hlt, hend⟩
    cases u with
    | nil =>
      obtain rfl : v = c :: text := htext.symm
      have hp := hend.resolve_left (by simp)
      rw [List.length_cons] at hlt
      refine ⟨[], text, rfl, by rw [escaped_len_nil] at hlt ⊢; omega, .inr ?_⟩
      rw [escaped_len_nil] at hp ⊢
      omega
    | cons b u =>
      obtain ⟨rfl, rfl⟩ := List.cons.inj htext
      rw [escaped_len_cons, if_pos hprint] at hlt hend
      exact ⟨u, v, rfl, by omega, hend.imp_right fun hp => by omega⟩
  · rintro ⟨u, v, rfl, hlt, hend⟩
    refine ⟨c :: u, v, rfl, ?_⟩
    rw [escaped_len_cons, if_pos hprint]
    exact ⟨by omega, hend.imp_right fun hp => by omega⟩

theorem fits_escaped (hprint : ¬ vsnprintf_is_print c space = true) :
    Fits space (c :: text) p ↔ Fits space text (p - if p < 4 then 1 else 4) := by
  constructor
  · rintro ⟨u, v, htext, hlt, hend⟩
    cases u with
    | nil =>
      obtain rfl : v = c :: text := htext.symm
      have hp := hend.resolve_left (by simp)
      rw [escaped_len_nil] at hp hlt
      rw [List.length_cons] at hlt
      rw [if_pos (by omega)]
      exact ⟨[], text, rfl, by rw [escaped_len_nil]; omega, .inr (by rw [escaped_len_nil]; omega)⟩
    | cons b u =>
      obtain ⟨rfl, rfl⟩ := List.cons.inj htext
      rw [escaped_len_cons, if_neg hprint] at hlt hend
      rw [if_neg (by omega)]
      exact ⟨u, v, rfl, by omega, hend.imp_right fun hp => by omega⟩
  · rintro ⟨u, v, rfl, hlt, hend⟩
    by_cases hshort : p < 4
    · rw [if_pos hshort] at hlt hend
      have hle := length_le_escaped space u
      refine ⟨[], c :: (u ++ v), rfl, ?_, .inr ?_⟩
      · rw [escaped_len_nil, List.length_cons, List.length_append]
        omega
      · rw [escaped_len_nil]
        omega
    · rw [if_neg hshort] at hlt hend
      refine ⟨c :: u, v, rfl, ?_⟩
      rw [escaped_len_cons, if_neg hprint]
      exact ⟨by omega, hend.imp_right fun hp => by omega⟩

/-- With room enough, a positive width is used up unless the text fits. -/
theorem render_fits {room : Nat} (hroom : escaped_len space text ≤ room) (hp : p < 2 ^ 31) :
    (render space text room p).length ≤ p ∧
      ((render space text room p).length ≠ p ↔ Fits space text p) := by
  induction text generalizing room p with
  | nil =>
    rw [fits_nil, render_nil]
    exact ⟨Nat.zero_le _, (Nat.pos_iff_ne_zero.trans ne_comm).symm⟩
  | cons c text ih =>
    rcases Nat.eq_zero_or_pos p with rfl | hpos
    · rw [Nat.cast_zero, render_no_width]
      exact ⟨le_rfl, iff_of_false (by simp) not_fits_zero⟩
    rw [escaped_len_cons] at hroom
    have hone : to_int ((p : Int) - 1) = ((p - 1 : Nat) : Int) := to_int_nat_sub hpos hp
    by_cases hprint : vsnprintf_is_print c space = true
    · rw [if_pos hprint] at hroom
      obtain ⟨hle, hiff⟩ := @ih (p - 1) (room - 1) (by omega) (by omega)
      rw [render_printed hprint (by omega) (by omega), hone, fits_printed hprint, ← hiff,
        List.length_cons]
      exact ⟨by omega, by omega⟩
    rw [if_neg hprint] at hroom
    rw [fits_escaped hprint]
    by_cases hshort : p < 4
    · obtain ⟨hle, hiff⟩ := @ih (p - 1) (room - 1) (by omega) (by omega)
      rw [if_pos hshort, render_dot hprint (by omega) (by omega) (.inr (by omega)), hone, ← hiff,
        List.length_cons]
      exact ⟨by omega, by omega⟩
    · have hfour : to_int ((p : Int) - 4) = ((p - 4 : Nat) : Int) :=
        to_int_nat_sub (Nat.not_lt.mp hshort) hp
      obtain ⟨hle, hiff⟩ := @ih (p - 4) (room - 4) (by omega) (by omega)
      rw [if_neg hshort, render_escape hprint (by omega) (by omega), hfour, ← hiff,
        List.length_append]
      show 4 + _ ≤ p ∧ (4 + _ ≠ p ↔ _)
      exact ⟨by omega, by omega⟩

theorem width_behind_iff {room : Nat} {len : Int} (hroom : escaped_len space text ≤ room)
    (hlow : -2 ^ 31 ≤ len) (hhigh : len < 2 ^ 31) :
    to_int (len - (render space text room len).length) ≠ 0 ↔
      Fits space (text.drop (negative_len len)) (positive_len len) := by
  have hnegative : len < 0 ∧ len = (negative_len len : Nat) - 2 ^ 31 - 1 ∧
    positive_len len = 2 ^ 31 - 1 ∨
      negative_len len = 0 ∧ len = positive_len len := by
    unfold negative_len positive_len
    split_ifs <;> omega
  have hsplit :
    escaped_len space (text.take (negative_len len)) +
    escaped_len space (text.drop (negative_len len)) =
      escaped_len space text := by
    rw [← escaped_len_append, List.take_append_drop]
  have htake := length_le_escaped space (text.take (negative_len len))
  have hdots : ((text.take (negative_len len)).map (dotted space)).take room =
      (text.take (negative_len len)).map (dotted space) :=
    List.take_of_length_le (by rw [List.length_map]; omega)
  have hlt := positive_len_lt hhigh
  rw [render_phases hlow, hdots, List.length_append, List.length_map]
  generalize negative_len len = m at hnegative hsplit htake ⊢
  generalize positive_len len = p at hnegative hlt ⊢
  rw [List.length_take] at htake ⊢
  by_cases hlong : m ≤ text.length
  · rw [Nat.min_eq_left hlong] at htake ⊢
    obtain ⟨hle, hiff⟩ := render_fits (show escaped_len space (text.drop m) ≤ room - m by omega) hlt
    rw [← hiff]
    generalize (render space (text.drop m) (room - m) p).length = r at hle ⊢
    have hleft : to_int (len - (m + r : Nat)) = p - r := by
      unfold to_int
      rw [Int.bmod_def]
      split_ifs <;> omega
    rw [hleft]
    omega
  · -- The text ends while the width is negative.
    rw [List.drop_of_length_le (by omega), render_nil, fits_nil, Nat.min_eq_right (by omega),
      List.length_nil, Nat.add_zero]
    have hleft : to_int (len - text.length) = len - text.length :=
      to_int_of_fits (by omega) (by omega)
    rw [hleft]
    exact iff_of_true (by omega) (by omega)

/-- What is left of the width `width` behind the first quote and the text. -/
def left_behind (space : Bool) (text : Bytes) (room : Nat) (len : Int) : Int :=
  to_int (to_int (len - 1) - (render space text room (to_int (len - 1))).length)

theorem left_behind_iff {room : Nat} (hroom : escaped_len space text ≤ room) {whole : Nat}
    (hwhole : whole % 2 ^ 32 ≠ 0) :
    left_behind space text room (int_of_size whole) ≠ 0 ↔
      if whole % 2 ^ 32 < 2 ^ 31 then Fits space text (whole % 2 ^ 32 - 1)
      else Fits space (text.drop (whole % 2 ^ 32 - 2 ^ 31)) (2 ^ 31 - 1) := by
  obtain ⟨hlow, hhigh⟩ := to_int_range (int_of_size whole - 1)
  unfold left_behind
  rw [width_behind_iff hroom hlow hhigh, int_of_size_mod]
  have hlt := Nat.mod_lt whole (show 0 < 2 ^ 32 by decide)
  generalize whole % 2 ^ 32 = width at hwhole hlt ⊢
  split_ifs with hsmall
  · have hone : to_int ((width : Int) - 1) = ((width - 1 : Nat) : Int) :=
      to_int_nat_sub (show 1 ≤ width by omega) hsmall
    have hnegative : negative_len ((width - 1 : Nat) : Int) = 0 := if_neg (by omega)
    have hpositive : positive_len ((width - 1 : Nat) : Int) = width - 1 := if_neg (by omega)
    rw [hone, hnegative, hpositive, List.drop_zero]
  · have hphases : negative_len (to_int ((width : Int) - 2 ^ 32 - 1)) = width - 2 ^ 31 ∧
        positive_len (to_int ((width : Int) - 2 ^ 32 - 1)) = 2 ^ 31 - 1 := by
      rcases eq_or_lt_of_le (Nat.not_lt.mp hsmall) with rfl | hmore
      · decide
      · rw [to_int_of_fits (by omega) (by omega)]
        unfold negative_len positive_len
        rw [if_pos (by omega), if_pos (by omega)]
        omega
    rw [hphases.1, hphases.2]

end Fits

theorem quoted_le_whole (space : Bool) (text : Bytes) (room : Nat) (len : Int) :
    (quoted true space text room len).length ≤ text_len true space text := by
  unfold quoted
  extract_lets opening front
  have hopening : opening.length ≤ 1 := quotation_le_one _ _ _
  have hclosing := quotation_le_one true (room - front.length) (to_int (len - front.length))
  have hbody : front.length ≤ 1 + escaped_len space text := by
    rw [List.length_append]
    exact Nat.add_le_add hopening render_le_escaped
  rw [List.length_append]
  show _ ≤ escaped_len space text + 2
  omega

theorem enclosed_of_body {body closing : Bytes} {space : Bool} (hbody : ∀ b ∈ body, Clean space b)
    (hclosing : closing = [] ∨ closing = [ch '"']) :
    Enclosed ([ch '"'] ++ body ++ closing) ↔ closing ≠ [] ∨ body = [] := by
  have hlast (front : Bytes) (b : Byte) : (ch '"' :: (front ++ [b])).getLast? = some b := by
    rw [← List.cons_append, List.getLast?_concat]
  unfold Enclosed
  rcases hclosing with rfl | rfl
  · rcases List.eq_nil_or_concat' body with rfl | ⟨front, b, rfl⟩
    · simp
    · have hb : b ≠ ch '"' := (hbody b (by simp)).2.2.2.1
      rw [List.append_nil, List.singleton_append, hlast]
      simp [hb]
  · rw [List.singleton_append, List.cons_append, hlast]
    simp

section Enclosed

variable {space : Bool} {text : Bytes} {room whole : Nat} {len : Int}

theorem quoted_body (hroom : escaped_len space text + 2 ≤ room) (hlen : len ≠ 0) :
    quoted true space text room len = [ch '"'] ++ render space text (room - 1) (to_int (len - 1)) ++
      if left_behind space text (room - 1) len ≠ 0 then [ch '"'] else [] := by
  have hle : (render space text (room - 1) (to_int (len - 1))).length ≤ escaped_len space text :=
    render_le_escaped
  have hopening : quotation true room len = [ch '"'] := if_pos ⟨rfl, by omega, hlen⟩
  unfold quoted
  rw [hopening]
  show [ch '"'] ++ render space text (room - 1) (to_int (len - 1)) ++ quotation true
    (room - ([ch '"'] ++ render space text (room - 1) (to_int (len - 1))).length)
    (to_int (len - (([ch '"'] ++ render space text (room - 1) (to_int (len - 1))).length : Nat))) =
      _
  have hleft :
    to_int (len - (([ch '"'] ++ render space text (room - 1) (to_int (len - 1))).length : Nat)) =
      left_behind space text (room - 1) len := by
    rw [left_behind, to_int_sub, List.length_append, Nat.cast_add, ← Int.sub_sub]
    rfl
  have hroom' :
      room - ([ch '"'] ++ render space text (room - 1) (to_int (len - 1))).length ≠ 0 := by
    rw [List.length_append, List.length_singleton]
    omega
  rw [hleft]
  congr 1
  exact if_congr ⟨fun hquote => hquote.2.2, fun hleft => ⟨rfl, hroom', hleft⟩⟩ rfl rfl

theorem body_empty_iff (hend : left_behind space text room (int_of_size whole) = 0) :
    render space text room (to_int (int_of_size whole - 1)) = [] ↔ whole % 2 ^ 32 = 1 := by
  constructor
  · intro hnil
    rw [left_behind, hnil, int_of_size_mod] at hend
    simp only [List.length_nil, Nat.cast_zero, Int.sub_zero, to_int_to_int] at hend
    unfold to_int at hend
    rw [Int.bmod_def] at hend
    split_ifs at hend <;> omega
  · intro hone
    have hsize : int_of_size whole = 1 := by
      rw [int_of_size_mod, hone]
      rfl
    rw [hsize]
    exact render_no_width

theorem not_enclosed_zero (hwhole : whole % 2 ^ 32 = 0) :
    ¬ Enclosed (quoted true space text room (int_of_size whole)) := by
  have hsize : int_of_size whole = 0 := by
    rw [int_of_size_mod, hwhole]
    rfl
  have hnil : quoted true space text room 0 = [] := by
    have hto : to_int 0 = 0 := rfl
    simp [quoted, quotation, hto]
  rw [hsize, hnil]
  exact fun h => absurd h.1 (by simp)

theorem enclosed_iff (hroom : text_len true space text + 1 ≤ room) :
    Enclosed (quoted true space text room (int_of_size (text_len true space text))) ↔
      Encloses space text := by
  have hlength : text_len true space text = escaped_len space text + 2 := rfl
  unfold Encloses
  generalize text_len true space text = whole at hroom hlength
  dsimp only
  by_cases hzero : whole % 2 ^ 32 = 0
  · refine iff_of_false (not_enclosed_zero hzero) ?_
    rw [hzero, if_pos (by decide)]
    rintro (h | h)
    · exact absurd h (by decide)
    · exact not_fits_zero h
  have hne : int_of_size whole ≠ 0 := by
    rw [int_of_size_mod]
    split_ifs <;> omega
  have hleft : left_behind space text (room - 1) (int_of_size whole) ≠ 0 ↔ _ :=
    left_behind_iff (by omega) hzero
  have hclean := render_clean space text (room - 1) (to_int (int_of_size whole - 1))
  rw [quoted_body (by omega) hne, enclosed_of_body hclean (by split_ifs <;> simp), ← hleft]
  by_cases hend : left_behind space text (room - 1) (int_of_size whole) = 0
  · -- Without a last quote, the first one is the last byte only if nothing is between them.
    simp [hend, body_empty_iff hend]
  · simp [hend]

end Enclosed

/-- A text of less than four gigabytes always has both quotes. -/
theorem encloses_of_short {space : Bool} {text : Bytes}
    (hshort : text_len true space text < 2 ^ 32) : Encloses space text := by
  have hwhole : text_len true space text = escaped_len space text + 2 := rfl
  unfold Encloses
  dsimp only
  rw [Nat.mod_eq_of_lt hshort, hwhole]
  refine .inr ?_
  split_ifs with hsmall
  · exact ⟨text, [], (List.append_nil _).symm, by rw [List.length_nil]; omega, .inl rfl⟩
  · refine ⟨text.drop (escaped_len space text + 2 - 2 ^ 31), [], (List.append_nil _).symm,
      ?_, .inl rfl⟩
    have hsplit : escaped_len space (text.take (escaped_len space text + 2 - 2 ^ 31)) +
        escaped_len space (text.drop (escaped_len space text + 2 - 2 ^ 31)) =
          escaped_len space text := by
      rw [← escaped_len_append, List.take_append_drop]
    have htake := length_le_escaped space (text.take (escaped_len space text + 2 - 2 ^ 31))
    rw [List.length_take] at htake
    rw [List.length_nil]
    by_cases hlong : escaped_len space text + 2 - 2 ^ 31 ≤ text.length
    · rw [Nat.min_eq_left hlong] at htake
      omega
    · rw [List.drop_of_length_le (by omega), escaped_len_nil]
      decide

/-- What a line of the log relies on: no byte of the argument can be taken for its structure. -/
structure Safe (d : H) (ap : Nat → va_arg) (size : Nat) (out : Bytes) : Prop where
  harmless : Harmless d out
  enclosed : d.width = .none → d.alt = true → ∀ text, d.arg ap = some text →
    text_len true d.space text + 1 ≤ size →
    Enclosed out

theorem text_take_whole {d : H} {ap : Nat → va_arg} (hwidth : d.width = .none) (halt : d.alt = true)
    {text : Bytes} (htext : d.arg ap = some text) {size : Nat}
    (hsize : text_len true d.space text + 1 ≤ size) :
    (d.text ap size).take (size - 1) =
      quoted true d.space text size (int_of_size (text_len true d.space text)) := by
  have hlen : d.len ap = int_of_size (text_len true d.space text) := by
    simp [H.len, H.given, hwidth, htext, width_of, whole_len, halt]
  have hle := quoted_le_whole d.space text size (int_of_size (text_len true d.space text))
  rw [H.text, htext, hlen, halt]
  exact List.take_of_length_le (by rw [text_of_H]; omega)

/-- **`%H` cannot forge the structure of the log**: its bytes are harmless, and it has both quotes
exactly if the width that the code computes is enough for them. -/
theorem H_safe_iff (d : H) {ap : Nat → va_arg} (hap : d.Terminated ap) {size : Nat}
    (hsize : 1 ≤ size) {str : Bytes} (hstr : str.length = size) :
    (∃ str' out, vsnprintf str size d.cformat ap = .ok str' ∧ cstring str' = .ok out ∧
      Safe d ap size out) ↔
      (d.width = .none → d.alt = true → ∀ text, d.arg ap = some text →
      text_len true d.space text + 1 ≤ size →
        Encloses d.space text) := by
  obtain ⟨str', hrun, hout⟩ := H_output d hap hsize hstr
  constructor
  · rintro ⟨str1, out, hrun1, hout1, hsafe⟩ hwidth halt text htext hroom
    obtain rfl := Except.ok.inj (hrun.symm.trans hrun1)
    obtain rfl := Except.ok.inj (hout.symm.trans hout1)
    rw [← enclosed_iff hroom, ← text_take_whole hwidth halt htext hroom]
    exact hsafe.enclosed hwidth halt text htext hroom
  · intro h
    refine ⟨str', _, hrun, hout, (text_harmless d ap size).take _,
      fun hwidth halt text htext hroom => ?_⟩
    rw [text_take_whole hwidth halt htext hroom, enclosed_iff hroom]
    exact h hwidth halt text htext hroom

/-- `"%#H"` -/
def quoting : H := ⟨[.alt], .none⟩

theorem H_safe_sample :
    ∃ str' out, vsnprintf (List.replicate 20 1) 20 quoting.cformat sample = .ok str' ∧
    cstring str' = .ok out ∧ Safe quoting sample 20 out :=
  (@H_safe_iff quoting sample (by rintro _ ⟨⟩; decide) 20 (by decide) _ rfl).mpr
    fun _ _ text htext _ => by
    obtain rfl := Option.some.inj htext
    exact encloses_of_short (by decide)

theorem exists_printed (n : Nat) : ∃ text : Bytes, escaped_len false text = n ∧ 0 ∉ text :=
  ⟨List.replicate n (ch 'a'),
    by rw [escaped_len, List.map_replicate, List.sum_replicate]; exact Nat.mul_one n,
    fun h => absurd (List.eq_of_mem_replicate h) (by decide)⟩

/-- A pointer to a string, for every directive. -/
def pointing (text : Bytes) (_ : Nat) : va_arg where
  int := 0
  long := 0
  pointer := 0
  string := some (text ++ [0])

theorem pointing_arg (d : H) {text : Bytes} (hnul : 0 ∉ text) :
    d.arg (pointing text) = some text := by
  have htext : (text ++ [0]).takeWhile (· != 0) = text :=
    (takeWhile_nul text []).trans (List.takeWhile_eq_self_iff.mpr (all_ne hnul))
  have hpointer : d.pointer (pointing text) = some (text ++ [0]) := rfl
  rw [H.arg, hpointer, Option.map_some, htext, named, if_neg (by simp)]

theorem pointing_terminated (d : H) (text : Bytes) : d.Terminated (pointing text) := by
  rintro _ ⟨⟩
  simp

/-- A text of four gigabytes, with its quotes, has a width of zero. -/
theorem H_not_always_safe :
    ¬ ∀ (d : H) (ap : Nat → va_arg) (size : Nat) (str : Bytes), d.Terminated ap → 1 ≤ size →
    str.length = size → ∃ str' out, vsnprintf str size d.cformat ap = .ok str' ∧
      cstring str' = .ok out ∧
      Safe d ap size out := by
  intro h
  obtain ⟨text, hlen, hnul⟩ := exists_printed (2 ^ 32 - 2)
  have hwhole : text_len true quoting.space text = 2 ^ 32 := by
    show escaped_len false text + 2 = 2 ^ 32
    omega
  obtain ⟨size, hsize⟩ : ∃ size, text_len true quoting.space text + 1 ≤ size := ⟨_, le_rfl⟩
  obtain ⟨str, hstr⟩ : ∃ str : Bytes, str.length = size :=
    ⟨List.replicate size 0, List.length_replicate⟩
  have harg := pointing_arg quoting hnul
  have hap := pointing_terminated quoting text
  obtain ⟨str', out, hrun, hout, hsafe⟩ := h quoting (pointing text) size str hap (by omega) hstr
  obtain ⟨str1, hrun1, hout1⟩ := H_output quoting hap (by omega) hstr
  obtain rfl := Except.ok.inj (hrun.symm.trans hrun1)
  obtain rfl := Except.ok.inj (hout.symm.trans hout1)
  have henclosed := hsafe.enclosed rfl rfl text harg hsize
  rw [text_take_whole rfl rfl harg hsize, enclosed_iff hsize, Encloses, hwhole] at henclosed
  rcases henclosed with hone | hfits
  · exact absurd hone (by decide)
  · rw [if_pos (by decide)] at hfits
    obtain ⟨u, v, -, hlt, -⟩ := hfits
    omega

end Log
