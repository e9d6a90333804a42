import IcecastCommon.Log.Format

/-!
# What the formatter writes

The stores of `__vsnprintf` put texts behind each other. Each text depends on the room that is left
in the buffer and in the block.
-/

namespace Log

open Lib vsnprintf_t

/-! ## Widths -/

theorem to_int_of_fits {n : Int} (h : -2 ^ 31 ≤ n) (h' : n < 2 ^ 31) : to_int n = n :=
  wrap_of_fits h h'

theorem to_int_range (n : Int) : -2 ^ 31 ≤ to_int n ∧ to_int n < 2 ^ 31 := wrap_range n

@[simp] theorem to_int_to_int (n : Int) : to_int (to_int n) = to_int n := Int.bmod_bmod

@[simp] theorem to_int_sub (m n : Int) : to_int (to_int m - n) = to_int (m - n) := Int.bmod_sub_bmod

@[simp] theorem to_int_of_size (n : Nat) : to_int (int_of_size n) = int_of_size n := Int.bmod_bmod

/-! ## Stores -/

namespace vsnprintf_t

/-- `text` is stored at `str`. -/
def stored (s : vsnprintf_t) (text : Bytes) : vsnprintf_t :=
  { s with
    line := s.line.take s.str ++ text ++ s.line.drop (s.str + text.length)
    str := s.str + text.length }

/-- It is counted as well. -/
def written (s : vsnprintf_t) (text : Bytes) : vsnprintf_t :=
  { s.stored text with
    size := s.size - text.length, block_len := to_int (s.block_len - text.length) }

/-- What is in front of `str`. -/
def out (s : vsnprintf_t) : Bytes := s.line.take s.str

end vsnprintf_t

section Stores

variable {n : Nat} {s : vsnprintf_t}

@[simp] theorem written_size (text : Bytes) : (s.written text).size = s.size - text.length := rfl

@[simp] theorem written_block_len (text : Bytes) :
    (s.written text).block_len = to_int (s.block_len - text.length) := rfl

@[simp] theorem written_block_space (text : Bytes) : (s.written text).block_space = s.block_space :=
  rfl

@[simp] theorem written_block_alt (text : Bytes) : (s.written text).block_alt = s.block_alt := rfl

@[simp] theorem written_in_block (text : Bytes) : (s.written text).in_block = s.in_block := rfl

@[simp] theorem written_ap (text : Bytes) : (s.written text).ap = s.ap := rfl

theorem str_le (h : Room n 0 s) : s.str ≤ s.line.length := by
  have := h.size
  have := h.line
  omega

theorem stored_stored (h : s.str ≤ s.line.length) (a b : Bytes) :
    (s.stored a).stored b = s.stored (a ++ b) := by
  have hfront : (s.line.take s.str ++ a).length = s.str + a.length := by
    rw [List.length_append, List.length_take_of_le h]
  unfold stored
  congr 1
  · rw [List.take_left' hfront, List.length_append, ← Nat.add_assoc, ← List.drop_drop,
      List.drop_left' hfront, List.drop_drop]
    simp only [List.append_assoc]
  · rw [List.length_append, Nat.add_assoc]

theorem written_written (h : s.str ≤ s.line.length) (a b : Bytes) :
    (s.written a).written b = s.written (a ++ b) := by
  have hstored := stored_stored h a b
  have hsize : s.size - a.length - b.length = s.size - (a ++ b).length := by
    rw [List.length_append, Nat.sub_add_eq]
  have hlen :
      to_int (to_int (s.block_len - a.length) - b.length) =
      to_int (s.block_len - (a ++ b).length) := by
    rw [to_int_sub, List.length_append, Nat.cast_add, Int.sub_sub]
  calc (s.written a).written b
      = { (s.stored a).stored b with
          size := s.size - a.length - b.length,
          block_len := to_int (to_int (s.block_len - a.length) - b.length) } := rfl
    _ = s.written (a ++ b) := by rw [hstored, hsize, hlen]; rfl

theorem written_nil (hlen : to_int s.block_len = s.block_len) : s.written [] = s := by
  have hline : s.line.take s.str ++ [] ++ s.line.drop (s.str + 0) = s.line := by simp
  unfold written stored
  simp only [hline, List.length_nil, Nat.cast_zero, Int.sub_zero, hlen]
  rfl

theorem written_room (h : Room n 0 s) {text : Bytes} (htext : text.length ≤ s.size) :
    Room n 0 (s.written text) := by
  have hline := h.line
  have hsize := h.size
  refine ⟨?_, ?_, Nat.zero_le _⟩
  · show (s.line.take s.str ++ text ++ s.line.drop (s.str + text.length)).length = n
    rw [List.length_append, List.length_append, List.length_take_of_le (str_le h), List.length_drop]
    omega
  · show s.str + text.length + (s.size - text.length) = n + 0
    omega

theorem written_out (h : Room n 0 s) (text : Bytes) : (s.written text).out = s.out ++ text := by
  have hfront : (s.line.take s.str ++ text).length = s.str + text.length := by
    rw [List.length_append, List.length_take_of_le (str_le h)]
  exact List.take_left' hfront

theorem out_length (h : Room n 0 s) : s.out.length = s.str := List.length_take_of_le (str_le h)

theorem push_stored (h : s.str ≤ s.line.length) {text : Bytes}
    (hroom : s.str + text.length < s.line.length) (c : Byte) :
    (s.stored text).push c = .ok (s.stored (text ++ [c])) := by
  have hlength : (s.stored text).line.length = s.line.length := by
    show (s.line.take s.str ++ text ++ s.line.drop (s.str + text.length)).length = s.line.length
    rw [List.length_append, List.length_append, List.length_take_of_le h, List.length_drop]
    omega
  have hstr : (s.stored text).str < (s.stored text).line.length := by
    rw [hlength]
    exact hroom
  have hset :
      (s.stored text).line.set (s.stored text).str c = ((s.stored text).stored [c]).line := by
    rw [List.set_eq_take_append_cons_drop, if_pos hstr]
    simp [stored]
  rw [← stored_stored h]
  unfold vsnprintf_t.push
  rw [store_eq hstr, ok_bind, hset]
  rfl

theorem stored_nil : s.stored [] = s := by
  have hline : s.line.take s.str ++ [] ++ s.line.drop (s.str + 0) = s.line := by simp
  unfold stored
  simp only [List.length_nil, hline]
  rfl

theorem push_eq (h : Room n 0 s) (hsize : 0 < s.size) (c : Byte) :
    s.push c = .ok (s.stored [c]) := by
  have hroom : s.str + ([] : Bytes).length < s.line.length := by
    have := h.size
    have := h.line
    simp only [List.length_nil]
    omega
  have hpush := push_stored (str_le h) hroom c
  rw [stored_nil] at hpush
  exact hpush

theorem count_stored {text : Bytes} (htext : text.length ≤ s.size) :
    (s.stored text).count text.length = s.written text := by
  have hsub : size_sub s.size text.length = s.size - text.length := size_sub_of_le htext
  unfold vsnprintf_t.count written
  rw [← hsub]
  rfl

theorem count_count {a b : Nat} (h : a + b ≤ s.size) : (s.count a).count b = s.count (a + b) := by
  have ha : size_sub s.size a = s.size - a := size_sub_of_le (by omega)
  have hb : size_sub (s.size - a) b = s.size - a - b := size_sub_of_le (by omega)
  have hab : size_sub s.size (a + b) = s.size - a - b := by
    rw [size_sub_of_le h]
    omega
  have hlen : to_int (to_int (s.block_len - a) - b) = to_int (s.block_len - (a + b : Nat)) := by
    rw [to_int_sub, Nat.cast_add, Int.sub_sub]
  unfold vsnprintf_t.count
  simp only [ha, hb, hab, hlen]

theorem push_count (h : Room n 0 s) (hsize : 0 < s.size) (c : Byte) :
    (do return (← s.push c).count 1) = (.ok (s.written [c]) : C vsnprintf_t) := by
  rw [push_eq h hsize, ok_bind]
  exact congrArg Except.ok (count_stored hsize)

theorem put_eq (h : Room n 0 s) (hlen : to_int s.block_len = s.block_len) (c : Byte) :
    s.put c = .ok (s.written (if s.size ≠ 0 ∧ s.block_len ≠ 0 then [c] else [])) := by
  unfold vsnprintf_t.put
  split_ifs with hput
  · exact push_count h (Nat.pos_of_ne_zero hput.1) c
  · rw [written_nil hlen]
    rfl

end Stores

/-! ## Texts -/

/-- A byte that is not printed, with its low digit first. -/
def escape_of (c : Byte) : Bytes :=
  [ch '\\', ch 'x', hexDigit (c.toNat % 16), hexDigit (c.toNat / 16)]

/-- What is written for one byte of an argument of `%H`. -/
def piece (space : Bool) (room : Nat) (len : Int) (c : Byte) : Bytes :=
  if vsnprintf_is_print c space then [c]
  else if room < 4 ∨ len < 4 then [ch '.']
  else escape_of c

/-- The argument of `%H` in a buffer with `room` bytes and in a block of `len` bytes. -/
def render (space : Bool) : Bytes → Nat → Int → Bytes
  | [], _, _ => []
  | c :: text, room, len =>
    if len = 0 ∨ room = 0 then []
    else
      let p := piece space room len c
      p ++ render space text (room - p.length) (to_int (len - p.length))

/-- A quote of `%#H`. -/
def quotation (alt : Bool) (room : Nat) (len : Int) : Bytes :=
  if alt ∧ room ≠ 0 ∧ len ≠ 0 then [ch '"'] else []

/-- The argument between its quotes. -/
def quoted (alt space : Bool) (text : Bytes) (room : Nat) (len : Int) : Bytes :=
  let opening := quotation alt room len
  let front := opening ++ render space text (room - opening.length) (to_int (len - opening.length))
  front ++ quotation alt (room - front.length) (to_int (len - front.length))

theorem piece_length (space : Bool) {room : Nat} (hroom : 0 < room) (len : Int) (c : Byte) :
    0 < (piece space room len c).length ∧ (piece space room len c).length ≤ room := by
  unfold piece
  split_ifs with hprint hshort
  · exact ⟨Nat.one_pos, hroom⟩
  · exact ⟨Nat.one_pos, hroom⟩
  · rw [not_or, Nat.not_lt] at hshort
    exact ⟨Nat.succ_pos _, hshort.1⟩

theorem render_length (space : Bool) (text : Bytes) (room : Nat) (len : Int) :
    (render space text room len).length ≤ room := by
  induction text generalizing room len with
  | nil => exact Nat.zero_le _
  | cons c text ih =>
    unfold render
    split_ifs with hend
    · exact Nat.zero_le _
    · rw [not_or] at hend
      have hpiece := (piece_length space (Nat.pos_of_ne_zero hend.2) len c).2
      have hrest :=
        ih (room - (piece space room len c).length) (to_int (len - (piece space room len c).length))
      rw [List.length_append]
      omega

theorem quotation_length (alt : Bool) (room : Nat) (len : Int) :
    (quotation alt room len).length ≤ room := by
  unfold quotation
  split_ifs with hquote
  · exact Nat.pos_of_ne_zero hquote.2.1
  · exact Nat.zero_le _

theorem quoted_length (alt space : Bool) (text : Bytes) (room : Nat) (len : Int) :
    (quoted alt space text room len).length ≤ room := by
  unfold quoted
  extract_lets opening front
  have hopening : opening.length ≤ room := quotation_length alt room len
  have hfront : front.length ≤ room := by
    have hrender := render_length space text (room - opening.length) (to_int (len - opening.length))
    rw [List.length_append]
    omega
  have hclosing := quotation_length alt (room - front.length) (to_int (len - front.length))
  rw [List.length_append]
  omega

section Texts

variable {n : Nat} {s : vsnprintf_t} {text : Bytes}

theorem quote_eq (h : Room n 0 s) (hlen : to_int s.block_len = s.block_len) :
    s.quote = .ok (s.written (quotation s.block_alt s.size s.block_len)) := by
  unfold vsnprintf_t.quote quotation
  by_cases halt : s.block_alt = true
  · rw [if_pos halt, put_eq h hlen]
    simp only [halt, true_and]
  · rw [if_neg halt, if_neg fun hquote => halt hquote.1, written_nil hlen]
    rfl

theorem escape_count (h : Room n 0 s) (hsize : 0 < s.size) (c : Byte) :
    (do return (← escape s c).count 1) =
      (.ok (s.written (piece s.block_space s.size s.block_len c)) : C vsnprintf_t) := by
  unfold escape piece
  by_cases hprint : vsnprintf_is_print c s.block_space = true
  · rw [if_pos hprint, if_pos hprint]
    exact push_count h hsize c
  rw [if_neg hprint, if_neg hprint]
  by_cases hshort : s.size < 4 ∨ s.block_len < 4
  · rw [if_pos hshort, if_pos hshort]
    exact push_count h hsize _
  -- Four bytes are stored, and three of them are counted here.
  rw [if_neg hshort, if_neg hshort]
  rw [not_or, Nat.not_lt] at hshort
  have hroom (text : Bytes) (htext : text.length < 4) : s.str + text.length < s.line.length := by
    have := h.size
    have := h.line
    omega
  have hle := str_le h
  rw [push_eq h hsize, ok_bind, push_stored hle (hroom _ (by simp)), ok_bind,
    push_stored hle (hroom _ (by simp)), ok_bind, push_stored hle (hroom _ (by simp)), ok_bind,
    pure_eq_ok, ok_bind, pure_eq_ok, count_count hshort.1]
  exact congrArg Except.ok (count_stored hshort.1)

theorem arg_loop_escape {block : Bytes} (hblock : block.takeWhile (· != 0) = text)
    (hnul : 0 ∈ block) (h : Room n 0 s) (hlen : to_int s.block_len = s.block_len) :
    arg_loop escape block s = .ok (s.written (render s.block_space text s.size s.block_len)) := by
  induction block generalizing s text with
  | nil => exact absurd hnul List.not_mem_nil
  | cons c block ih =>
    unfold arg_loop
    by_cases hc : c = 0
    · rw [if_neg fun hgo => hgo.1 hc]
      rw [List.takeWhile_cons_of_neg (by simp [hc])] at hblock
      rw [← hblock, render, written_nil hlen]
      rfl
    rw [List.takeWhile_cons_of_pos (by simp [hc])] at hblock
    subst hblock
    unfold render
    by_cases hend : s.block_len = 0 ∨ s.size = 0
    · rw [if_pos hend, if_neg fun hgo => hend.elim hgo.2.1 hgo.2.2, written_nil hlen]
      rfl
    rw [if_neg hend]
    rw [not_or] at hend
    rw [if_pos ⟨hc, hend⟩]
    have hsize := Nat.pos_of_ne_zero hend.2
    have hstep := escape_count h hsize c
    have hpiece := (piece_length s.block_space hsize s.block_len c).2
    obtain ⟨s1, hs1, hcount⟩ := bind_eq_ok.mp hstep
    rw [hs1, ok_bind, Except.ok.inj hcount,
      ih rfl ((List.mem_cons.mp hnul).resolve_left (Ne.symm hc))
        (written_room h hpiece) (by simp), written_written (str_le h)]
    rfl

theorem print_H_eq {block : Bytes} (hnul : 0 ∈ block) (h : Room n 0 s)
    (hlen : to_int s.block_len = s.block_len) :
    print_H s (some block) =
      .ok (s.written
        (quoted s.block_alt s.block_space (block.takeWhile (· != 0)) s.size s.block_len)) := by
  unfold quoted
  extract_lets opening front
  have hopening : opening.length ≤ s.size := quotation_length s.block_alt s.size s.block_len
  have hloop : arg_loop escape block (s.written opening) = .ok (s.written front) := by
    rw [arg_loop_escape rfl hnul (written_room h hopening) (by simp), written_written (str_le h)]
    rfl
  have hfront : front.length ≤ s.size := by
    have hrender := render_length s.block_space (block.takeWhile (· != 0)) (s.size - opening.length)
      (to_int (s.block_len - opening.length))
    rw [List.length_append]
    omega
  unfold print_H
  dsimp only
  rw [quote_eq h hlen, ok_bind, hloop, ok_bind, quote_eq (written_room h hfront) (by simp),
    written_written (str_le h)]
  rfl

end Texts

/-! ## Widths of arguments -/

/-- The bytes of an argument with all its escapes. -/
def escaped_len (space : Bool) (text : Bytes) : Nat :=
  (text.map fun c => if vsnprintf_is_print c space then 1 else 4).sum

def text_len (alt space : Bool) (text : Bytes) : Nat :=
  escaped_len space text + if alt then 2 else 0

/-- The width of a block, which is the whole text if none is given. -/
def width_of (len : Int) (whole : Nat) : Int := if len = 0 then int_of_size whole else len

@[simp] theorem escaped_len_nil (space : Bool) : escaped_len space [] = 0 := rfl

@[simp] theorem escaped_len_cons (space : Bool) (c : Byte) (text : Bytes) :
    escaped_len space (c :: text) = (if vsnprintf_is_print c space then 1 else 4) +
      escaped_len space text := List.sum_cons

@[simp] theorem escaped_len_append (space : Bool) (text text' : Bytes) :
    escaped_len space (text ++ text') = escaped_len space text + escaped_len space text' := by
  unfold escaped_len
  rw [List.map_append, List.sum_append]

theorem length_le_escaped (space : Bool) (text : Bytes) : text.length ≤ escaped_len space text := by
  induction text with
  | nil => exact le_rfl
  | cons c text ih =>
    rw [List.length_cons, escaped_len_cons]
    split_ifs <;> omega

theorem width_of_fits {len : Int} (hlen : to_int len = len) (whole : Nat) :
    to_int (width_of len whole) = width_of len whole := by
  unfold width_of
  split_ifs
  · exact to_int_of_size whole
  · exact hlen

theorem strlen_loop_eq {space : Bool} {block : Bytes} (hnul : 0 ∈ block) (ret : Nat) :
    strlen_loop space block ret = .ok (ret + escaped_len space (block.takeWhile (· != 0))) := by
  induction block generalizing ret with
  | nil => exact absurd hnul List.not_mem_nil
  | cons c block ih =>
    unfold strlen_loop
    by_cases hc : c = 0
    · rw [if_pos hc, List.takeWhile_cons_of_neg (by simp [hc])]
      rfl
    have hrest := (List.mem_cons.mp hnul).resolve_left (Ne.symm hc)
    rw [if_neg hc, List.takeWhile_cons_of_pos (by simp [hc]), escaped_len_cons]
    split_ifs
    all_goals rw [ih hrest, Nat.add_assoc]

section Directives

variable {n : Nat} {s : vsnprintf_t} {block : Bytes}

theorem width_eq (hnul : 0 ∈ block) :
    s.width (some block) =
      .ok (width_of s.block_len
        (text_len s.block_alt s.block_space (block.takeWhile (· != 0)))) := by
  have hstrlen : vsnprintf_strlen (some block) s.block_alt s.block_space =
      .ok (text_len s.block_alt s.block_space (block.takeWhile (· != 0))) := by
    unfold vsnprintf_strlen text_len
    dsimp only
    rw [strlen_loop_eq hnul, ok_bind, Nat.zero_add]
    cases s.block_alt <;> rfl
  unfold vsnprintf_t.width width_of
  split_ifs
  · rw [hstrlen]
    rfl
  · rfl

/-- The block ends, and its width is known. -/
def vsnprintf_t.closed (s : vsnprintf_t) (len : Int) : vsnprintf_t :=
  { s with block_len := len, in_block := false }

/-- The string that stands for a null pointer, except with `#`. -/
def named (alt : Bool) (arg : Option Bytes) : Option Bytes :=
  if arg = none ∧ !alt then some (ascii "(null)") else arg

def whole_len (alt space : Bool) : Option Bytes → Nat
  | none => 1
  | some text => text_len alt space text

/-- The text of `%H` in a buffer with `room` bytes and in a block of `len` bytes. -/
def text_of_H (alt space : Bool) (room : Nat) (len : Int) : Option Bytes → Bytes
  | none => if room ≠ 0 ∧ len ≠ 0 then [ch '-'] else []
  | some text => quoted alt space text room len

theorem text_of_H_length (alt space : Bool) (room : Nat) (len : Int) (arg : Option Bytes) :
    (text_of_H alt space room len arg).length ≤ room := by
  match arg with
  | none =>
    unfold text_of_H
    split_ifs with hdash
    · exact Nat.pos_of_ne_zero hdash.1
    · exact Nat.zero_le _
  | some text => exact quoted_length alt space text room len

theorem print_arg_string (hnul : 0 ∈ block) (h : Room n 0 s)
    (hlen : to_int s.block_len = s.block_len) {len : Int}
    (hwidth : len = width_of s.block_len
      (text_len s.block_alt s.block_space (block.takeWhile (· != 0)))) :
    print_arg s (ch 'H') (some block) = .ok ((s.closed len).written
      (quoted s.block_alt s.block_space (block.takeWhile (· != 0)) s.size len)) := by
  have hlen' : to_int len = len := hwidth ▸ width_of_fits hlen _
  unfold print_arg
  rw [if_neg (not_not.mpr rfl)]
  dsimp only
  rw [if_neg (by simp), width_eq hnul, ok_bind, ← hwidth, if_pos rfl]
  exact print_H_eq (s := s.closed len) hnul ⟨h.line, h.size, h.fits⟩ hlen'

theorem print_arg_dash (halt : s.block_alt = true) (h : Room n 0 s)
    (hlen : to_int s.block_len = s.block_len) {len : Int} (hwidth : len = width_of s.block_len 1) :
    print_arg s (ch 'H') none =
      .ok ((s.closed len).written (if s.size ≠ 0 ∧ len ≠ 0 then [ch '-'] else [])) := by
  have hlen' : to_int len = len := hwidth ▸ width_of_fits hlen _
  have hnone : s.width none = .ok len := by
    rw [hwidth]
    unfold vsnprintf_t.width width_of
    split_ifs
    · simp [vsnprintf_strlen, halt, ascii]
    · rfl
  unfold print_arg
  rw [if_neg (not_not.mpr rfl)]
  dsimp only
  rw [if_neg (by simp [halt]), hnone, ok_bind, if_pos rfl]
  exact put_eq (s := s.closed len) ⟨h.line, h.size, h.fits⟩ hlen' _

theorem print_arg_null (halt : s.block_alt = false) (format : Byte) :
    print_arg s format none = print_arg s format (some (ascii "(null)" ++ [0])) := by
  have hkept : (if format ≠ ch 'H' then { s with block_alt := false } else s) = s := by
    split_ifs
    · cases s
      cases halt
      rfl
    · rfl
  unfold print_arg
  rw [hkept]
  simp [halt]

/-- **A directive of `%H`** writes its text. -/
theorem print_arg_H {arg : Option Bytes} (harg : ∀ block, arg = some block → 0 ∈ block)
    (h : Room n 0 s) (hlen : to_int s.block_len = s.block_len) {len : Int}
    (hwidth : len = width_of s.block_len
      (whole_len s.block_alt s.block_space (named s.block_alt (arg.map (·.takeWhile (· != 0)))))) :
    print_arg s (ch 'H') arg = .ok ((s.closed len).written
      (text_of_H s.block_alt s.block_space s.size len
      (named s.block_alt (arg.map (·.takeWhile (· != 0)))))) := by
  cases arg with
  | some block =>
    have hnamed :
        named s.block_alt (some (block.takeWhile (· != 0))) = some (block.takeWhile (· != 0)) :=
      if_neg (by simp)
    rw [Option.map_some, hnamed] at hwidth ⊢
    exact print_arg_string (harg block rfl) h hlen hwidth
  | none =>
    rw [Option.map_none] at hwidth ⊢
    by_cases halt : s.block_alt = true
    · have hnamed : named s.block_alt none = none := if_neg (by simp [halt])
      rw [hnamed] at hwidth ⊢
      exact print_arg_dash halt h hlen hwidth
    · have hnamed : named s.block_alt none = some (ascii "(null)") := if_pos (by simp [halt])
      rw [hnamed] at hwidth ⊢
      rw [print_arg_null (by simpa using halt)]
      exact print_arg_string (by simp) h hlen hwidth

end Directives

/-! ## Rounds of the loop -/

section Rounds

variable {ap : Nat → va_arg} {fuel : Nat} {c : Byte} {format : Bytes} {s : vsnprintf_t}

/-- A block begins. -/
def vsnprintf_t.opened (s : vsnprintf_t) : vsnprintf_t :=
  { s with
    in_block := true, block_size := 0, block_len := 0, block_space := false, block_alt := false }

theorem loop_end (h : c = 0 ∨ s.size = 0) :
    vsnprintf_loop ap (fuel + 1) (c :: format) s = .ok s := by
  unfold vsnprintf_loop
  rw [if_pos h]
  rfl

theorem loop_percent (hblock : s.in_block = false) (hsize : s.size ≠ 0) :
    vsnprintf_loop ap (fuel + 1) (ch '%' :: format) s = vsnprintf_loop ap fuel format s.opened := by
  rw [vsnprintf_loop, if_neg (not_or.mpr ⟨by decide, hsize⟩), if_pos (by simp [hblock]), if_pos rfl]
  rfl

/-- A byte outside of a block is written, and its block is over. -/
def vsnprintf_t.literal (s : vsnprintf_t) (c : Byte) : vsnprintf_t :=
  { s.stored [c] with size := s.size - 1 }

theorem loop_literal {n : Nat} (h : Room n 0 s) (hblock : s.in_block = false) (hsize : s.size ≠ 0)
    (hnul : c ≠ 0) (hpercent : c ≠ ch '%') :
    vsnprintf_loop ap (fuel + 1) (c :: format) s = vsnprintf_loop ap fuel format (s.literal c) := by
  have hpos := Nat.pos_of_ne_zero hsize
  have hsub : size_sub s.size 1 = s.size - 1 := size_sub_of_le hpos
  rw [vsnprintf_loop, if_neg (not_or.mpr ⟨hnul, hsize⟩), if_pos (by simp [hblock]), if_neg hpercent,
    push_eq h hpos, ok_bind]
  show vsnprintf_loop ap fuel format { s.stored [c] with size := size_sub s.size 1 } = _
  rw [hsub]
  rfl

theorem loop_directive (hblock : s.in_block = true) (hsize : s.size ≠ 0) (hnul : c ≠ 0)
    (hdigit : ¬ (ch '1' ≤ c ∧ c ≤ ch '9')) :
    vsnprintf_loop ap (fuel + 1) (c :: format) s = directive ap s c >>=
      vsnprintf_loop ap fuel format := by
  rw [vsnprintf_loop, if_neg (not_or.mpr ⟨hnul, hsize⟩), if_neg (by simp [hblock]), if_neg hdigit]

/-- The value of a number that is given as a width. -/
def width_value (n : Nat) : Int := (min (n : Int) (2 ^ 63 - 1)).bmod (2 ^ 32)

theorem loop_number (hblock : s.in_block = true) (hsize : s.size ≠ 0) {n : Nat} (hn : 0 < n)
    {rest : Bytes} (hrest : rest.head?.any isdigit = false) (hnul : 0 ∈ rest) :
    vsnprintf_loop ap (fuel + 1) (decimal n ++ rest) s =
      vsnprintf_loop ap fuel rest { s with block_len := width_value n } := by
  obtain ⟨b, tail, hdecimal, hzero⟩ := decimal_head hn
  have hdigits := decimal_digits n
  have hb : ch '1' ≤ b ∧ b ≤ ch '9' := by
    have hall : ∀ b, isdigit b → b ≠ ch '0' → ch '1' ≤ b ∧ b ≤ ch '9' :=
      forall_byte (by decide +kernel)
    exact hall b (hdigits b (by simp [hdecimal])) hzero
  have hne : ∀ b ∈ decimal n, (b != 0) = true := fun b hmem => by
    have hall : ∀ b, isdigit b → (b != 0) = true := forall_byte (by decide +kernel)
    exact hall b (hdigits b hmem)
  have hstring : cstring (decimal n ++ rest) = .ok (decimal n ++ rest.takeWhile (· != 0)) := by
    unfold cstring
    rw [if_pos (by simp [hnul]), List.takeWhile_append_of_pos hne]
    rfl
  have hfollow : (rest.takeWhile (· != 0)).head?.any isdigit = false := by
    cases rest with
    | nil => rfl
    | cons c rest =>
      rw [List.takeWhile_cons]
      split_ifs
      · exact hrest
      · rfl
  have hdrop : (decimal n ++ rest).dropWhile isdigit = rest := by
    rw [List.dropWhile_append_of_pos hdigits]
    cases rest with
    | nil => rfl
    | cons c rest => exact List.dropWhile_cons_of_neg (by simpa using hrest)
  rw [hdecimal, List.cons_append] at hstring hdrop ⊢
  rw [vsnprintf_loop, if_neg (not_or.mpr ⟨by simpa using hne b (by simp [hdecimal]), hsize⟩),
    if_neg (by simp [hblock]), if_pos hb, hdrop, hstring, ok_bind, ← hdecimal,
    atoi_decimal hn hfollow]
  rfl

end Rounds

/-! ## From the first byte to the last -/

/-- The variables before the loop. -/
def start (str : Bytes) (size : Nat) : vsnprintf_t :=
  { line := str, str := 0, size, ap := 0, in_block := false, block_size := 0, block_len := 0,
    block_space := false, block_alt := false }

theorem start_room {str : Bytes} {size : Nat} (hstr : str.length = size) :
    Room size 0 (start str size) :=
  ⟨hstr, Nat.zero_add size, Nat.zero_le _⟩

/-- What was written is cut off in front of the last byte of the buffer. -/
theorem ended_output {n : Nat} {s : vsnprintf_t} (h : Room n 0 s) (hn : 1 ≤ n) :
    ∃ line, store s.line (if s.size = 0 then (s.str : Int) - 1 else s.str) 0 = .ok line ∧
      line.length = n ∧
      cstring line = .ok ((s.out.take (n - 1)).takeWhile (· != 0)) := by
  have hline := h.line
  have hsize := h.size
  have hcut {i : Nat} (hi : i < n) (hstr : i ≤ s.str) (hlast : n - 1 ≤ i ∨ s.str = i) :
      ∃ line, store s.line (i : Int) 0 = .ok line ∧ line.length = n ∧
        cstring line = .ok ((s.out.take (n - 1)).takeWhile (· != 0)) := by
    have hout : s.line.take i = s.out.take (n - 1) := by
      rw [vsnprintf_t.out, List.take_take]
      congr 1
      omega
    refine ⟨_, store_eq (by omega) 0, by rw [List.length_set, hline], ?_⟩
    rw [List.set_eq_take_append_cons_drop, if_pos (by omega), hout]
    exact cstring_cut _ _
  split_ifs with hfull
  · have hpos : ((s.str : Int) - 1) = ((s.str - 1 : Nat) : Int) := by omega
    rw [hpos]
    exact hcut (by omega) (by omega) (.inl (by omega))
  · exact hcut (by omega) le_rfl (.inr rfl)

section Output

variable {size : Nat} {format : CString} {ap : Nat → va_arg} {str : Bytes} {s : vsnprintf_t}

theorem vsnprintf_cut (hsize : 1 ≤ size)
    (hloop : vsnprintf_loop ap format.block.length format.block (start str size) = .ok s)
    (h : Room size 0 s) :
    ∃ str', vsnprintf str size format ap = .ok str' ∧
      cstring str' = .ok ((s.out.take (size - 1)).takeWhile (· != 0)) := by
  obtain ⟨line, hline, -, hcstring⟩ := ended_output h hsize
  exact ⟨line, run_bind hloop hline, hcstring⟩

/-- What the loop writes is what is formatted, up to the last byte of the buffer. -/
theorem vsnprintf_output (hsize : 1 ≤ size)
    (hloop : vsnprintf_loop ap format.block.length format.block (start str size) = .ok s)
    (h : Room size 0 s) (hnul : 0 ∉ s.out) :
    ∃ str', vsnprintf str size format ap = .ok str' ∧
      cstring str' = .ok (s.out.take (size - 1)) := by
  obtain ⟨str', hrun, hcstring⟩ := vsnprintf_cut hsize hloop h
  have hwhole : (s.out.take (size - 1)).takeWhile (· != 0) = s.out.take (size - 1) :=
    List.takeWhile_eq_self_iff.mpr (all_ne fun hmem => hnul (List.mem_of_mem_take hmem))
  rw [hwhole] at hcstring
  exact ⟨str', hrun, hcstring⟩

end Output

end Log
