import IcecastCommon.Net.Lines
import IcecastCommon.Net.Sent

/-!
# Lines through a socket

A text is handed to `send` as a whole or not at all, in both builds of `sock_write_fmt`. What is
written line by line comes out of `sock_read_line` line by line.
-/

namespace Net

open Lib

/-! ## Texts -/

/-- All of the text is offered to `send`, once. -/
def offer (sock : Outlet) (text : Bytes) : C (Int × Outlet) :=
  let (ret, sock) := send sock text
  return (ret.bmod (2 ^ 32), sock)

/-- Nothing is sent. -/
def Refused (sock : Outlet) (result : C (Int × Outlet)) : Prop :=
  ∃ ret ≤ 0, result = .ok (ret, sock)

/-- The builds of `sock_write_fmt`, with what they ask for memory. -/
inductive Writer where
  | new (malloc : Nat → Bool)
  | old (realloc : Nat → Bool)

def Writer.sock_write_fmt : Writer → Outlet → Bytes → C (Int × Outlet)
  | .new malloc => Net.sock_write_fmt malloc
  | .old realloc => OldVsnprintf.sock_write_fmt realloc

/-- There is a buffer for the text. The old build tries one after the other. -/
def Writer.Room (text : Bytes) : Writer → Prop
  | .new malloc => text.length < 1024 ∨ text.length < 2 ^ 31 - 1 ∧ malloc (text.length + 1) = true
  | .old realloc =>
    ∃ i < 256, text.length < 1024 + 8192 * i ∧ ∀ j ≤ i, realloc (1024 + 8192 * j) = true

section Texts

variable {sock : Outlet} {text : Bytes} {malloc realloc : Nat → Bool} {len : Nat}

theorem sock_write_bytes_offer (htext : text ≠ []) :
    sock_write_bytes sock (some (text ++ [0])) text.length = offer sock text := by
  have hlen : ¬ text.length ≤ 0 := Nat.not_le.mpr (List.length_pos_of_ne_nil htext)
  unfold sock_write_bytes offer
  simp only [if_neg hlen]
  rw [slice_front (by simp), List.take_left]
  rfl

theorem stored_whole (hfits : text.length < len) : text.take (len - 1) ++ [0] = text ++ [0] := by
  rw [List.take_of_length_le (by omega)]

theorem vsnprintf_fits (hfits : text.length < len) (hint : text.length < 2 ^ 31) :
    vsnprintf len text = ((text.length : Int), text ++ [0]) := by
  unfold vsnprintf
  rw [if_pos hint, stored_whole hfits]

theorem refused_text : Refused sock (.ok (-1, sock)) := ⟨-1, by decide, rfl⟩

theorem sock_write_fmt_long (hint : text.length < 2 ^ 31) (hlong : 1024 ≤ text.length) :
    sock_write_fmt malloc sock text =
      if text.length < 2 ^ 31 - 1 ∧ malloc (text.length + 1) = true then offer sock text
      else .ok (-1, sock) := by
  have htext : text ≠ [] := List.ne_nil_of_length_pos (by omega)
  have hlen : (vsnprintf 1024 text).1 = (text.length : Int) := if_pos hint
  unfold sock_write_fmt
  generalize hr : vsnprintf 1024 text = r at hlen
  obtain ⟨ret, buff⟩ := r
  dsimp only at hlen ⊢
  rw [hlen, if_pos (by omega), if_neg (by omega)]
  by_cases hmax : text.length < 2 ^ 31 - 1
  · have hsize : ((((text.length : Int) + 1).bmod (2 ^ 32)) % 2 ^ 64).toNat = text.length + 1 := by
      rw [wrap_of_fits (by omega) (by omega), Int.emod_eq_of_lt (by omega) (by omega)]
      omega
    rw [hsize, vsnprintf_fits (Nat.lt_succ_self _) hint]
    by_cases hmalloc : malloc (text.length + 1) = true
    · have hroom : (malloc (text.length + 1) && decide (text.length + 1 < 2 ^ 63)) = true := by
        rw [hmalloc, Bool.true_and, decide_eq_true_eq]
        omega
      rw [if_pos hroom]
      dsimp only
      rw [if_pos (show (text.length : Int) > 0 by omega), Int.toNat_natCast, if_pos ⟨hmax, hmalloc⟩]
      exact sock_write_bytes_offer htext
    · rw [if_neg (by simp [hmalloc]), if_neg fun h => hmalloc h.2]
      rfl
  · -- The length is counted up to the least `int`.
    have hsize : ((((text.length : Int) + 1).bmod (2 ^ 32)) % 2 ^ 64).toNat = 2 ^ 64 - 2 ^ 31 := by
      obtain hlength : text.length = 2 ^ 31 - 1 := by omega
      rw [hlength]
      decide
    rw [hsize, if_neg (by simp), if_neg fun h => hmax h.1]
    rfl

theorem sock_write_fmt_cases (malloc : Nat → Bool) (sock : Outlet) (text : Bytes) :
    (text ≠ [] ∧ (Writer.new malloc).Room text →
      sock_write_fmt malloc sock text = offer sock text) ∧
      (¬ (text ≠ [] ∧ (Writer.new malloc).Room text) →
      Refused sock (sock_write_fmt malloc sock text)) := by
  by_cases hint : text.length < 2 ^ 31
  · by_cases hshort : text.length < 1024
    · have hrun : sock_write_fmt malloc sock text =
          if (text.length : Int) > 0 then sock_write_bytes sock (some (text ++ [0])) text.length
            else .ok (-1, sock) := by
        unfold sock_write_fmt
        rw [vsnprintf_fits hshort hint]
        dsimp only
        rw [if_pos (show (text.length : Int) < 1024 by omega), Int.toNat_natCast]
        rfl
      by_cases htext : text = []
      · refine ⟨fun h => absurd htext h.1, fun _ => ?_⟩
        rw [hrun, if_neg (by simp [htext])]
        exact refused_text
      · have hpos := List.length_pos_of_ne_nil htext
        rw [hrun, if_pos (by omega), sock_write_bytes_offer htext]
        exact ⟨fun _ => rfl, fun h => absurd ⟨htext, .inl hshort⟩ h⟩
    · rw [sock_write_fmt_long hint (by omega)]
      refine ⟨fun h => if_pos (h.2.resolve_left hshort), fun h => ?_⟩
      rw [if_neg fun hroom => h ⟨List.ne_nil_of_length_pos (by omega), .inr hroom⟩]
      exact refused_text
  · have hret : (vsnprintf 1024 text).1 = -1 := if_neg hint
    have hrun : sock_write_fmt malloc sock text = .ok (-1, sock) := by
      unfold sock_write_fmt
      generalize vsnprintf 1024 text = r at hret ⊢
      obtain ⟨ret, buff⟩ := r
      dsimp only at hret ⊢
      rw [if_neg (by omega)]
      rfl
    rw [hrun]
    refine ⟨fun h => ?_, fun _ => refused_text⟩
    rcases h.2 with hshort | ⟨hmax, -⟩ <;> omega

/-! ### The rounds of the old build -/

section Rounds

variable {rounds : Nat} {ret : Int}

theorem retry_loop_ends (hlen : ¬ len < 2 * 1024 * 1024) :
    OldVsnprintf.retry_loop realloc sock text (rounds + 1) len ret = .ok (ret, sock) := by
  unfold OldVsnprintf.retry_loop
  rw [if_neg hlen]
  rfl

theorem retry_loop_refused (hlen : len < 2 * 1024 * 1024) (hrealloc : ¬ realloc len = true) :
    OldVsnprintf.retry_loop realloc sock text (rounds + 1) len ret = .ok (-1, sock) := by
  unfold OldVsnprintf.retry_loop
  rw [if_pos hlen, if_pos hrealloc]
  rfl

theorem retry_loop_offers (hlen : len < 2 * 1024 * 1024) (hrealloc : realloc len = true)
    (htext : text ≠ []) (hfits : text.length < len) :
    OldVsnprintf.retry_loop realloc sock text (rounds + 1) len ret = offer sock text := by
  have hpos := List.length_pos_of_ne_nil htext
  have hbuff : OldVsnprintf.vsnprintf len text = ((text.length : Int), text ++ [0]) := by
    unfold OldVsnprintf.vsnprintf
    rw [if_pos hfits, stored_whole hfits]
  unfold OldVsnprintf.retry_loop
  rw [if_pos hlen, if_neg (not_not.mpr hrealloc), hbuff]
  dsimp only
  rw [if_pos (by omega), Int.toNat_natCast, sock_write_bytes_offer htext]

theorem retry_loop_grows (sock : Outlet) (rounds : Nat) (ret : Int) (hlen : len < 2 * 1024 * 1024)
    (hrealloc : realloc len = true) (hsmall : text = [] ∨ ¬ text.length < len) :
    ∃ ret' ≤ 0, OldVsnprintf.retry_loop realloc sock text (rounds + 1) len ret =
      OldVsnprintf.retry_loop realloc sock text rounds (len + 8192) ret' := by
  have hret : (OldVsnprintf.vsnprintf len text).1 ≤ 0 := by
    unfold OldVsnprintf.vsnprintf
    dsimp only
    split_ifs with hfits
    · rw [hsmall.resolve_right (not_not.mpr hfits)]
      exact Int.le_refl 0
    · decide
  refine ⟨_, hret, ?_⟩
  rw [OldVsnprintf.retry_loop, if_pos hlen, if_neg (not_not.mpr hrealloc)]
  exact if_neg (Int.not_lt.mpr hret)

end Rounds

theorem retry_loop_cases (realloc : Nat → Bool) (sock : Outlet) (htext : text ≠ [])
    {rounds i : Nat} {ret : Int} (hrounds : rounds + i = 257) (hret : ret ≤ 0) (hi : i ≤ 256)
    (hfail : ∀ j < i, ¬ text.length < 1024 + 8192 * j ∧ realloc (1024 + 8192 * j) = true) :
    ((Writer.old realloc).Room text →
        OldVsnprintf.retry_loop realloc sock text rounds (1024 + 8192 * i) ret = offer sock text) ∧
      (¬ (Writer.old realloc).Room text →
        Refused sock (OldVsnprintf.retry_loop realloc sock text rounds (1024 + 8192 * i) ret)) := by
  induction rounds generalizing i ret with
  | zero => omega
  | succ rounds ih =>
    by_cases hlast : i = 256
    · rw [retry_loop_ends (by omega)]
      refine ⟨?_, fun _ => ⟨ret, hret, rfl⟩⟩
      rintro ⟨k, hk, hfits, -⟩
      exact absurd hfits (hfail k (by omega)).1
    by_cases hrealloc : realloc (1024 + 8192 * i) = true
    · have hupto : ∀ j ≤ i, realloc (1024 + 8192 * j) = true := by
        intro j hj
        obtain hj | rfl := Nat.lt_or_eq_of_le hj
        · exact (hfail j hj).2
        · exact hrealloc
      by_cases hfits : text.length < 1024 + 8192 * i
      · rw [retry_loop_offers (by omega) hrealloc htext hfits]
        exact ⟨fun _ => rfl, fun h => absurd ⟨i, by omega, hfits, hupto⟩ h⟩
      · obtain ⟨ret', hret', hround⟩ := retry_loop_grows sock rounds ret
          (show 1024 + 8192 * i < 2 * 1024 * 1024 by omega) hrealloc (.inr hfits)
        rw [hround, show 1024 + 8192 * i + 8192 = 1024 + 8192 * (i + 1) by omega]
        refine ih (by omega) hret' (by omega) fun j hj => ⟨?_, hupto j (by omega)⟩
        obtain hj | rfl := Nat.lt_or_eq_of_le (Nat.le_of_lt_succ hj)
        · exact (hfail j hj).1
        · exact hfits
    · rw [retry_loop_refused (by omega) hrealloc]
      refine ⟨?_, fun _ => refused_text⟩
      rintro ⟨k, hk, hfits, hall⟩
      by_cases hki : k < i
      · exact absurd hfits (hfail k hki).1
      · exact absurd (hall i (by omega)) hrealloc

theorem retry_loop_empty {rounds i : Nat} {ret : Int} (hrounds : rounds + i = 257) (hi : i ≤ 256)
    (hret : ret ≤ 0) :
    Refused sock (OldVsnprintf.retry_loop realloc sock [] rounds (1024 + 8192 * i) ret) := by
  induction rounds generalizing i ret with
  | zero => omega
  | succ rounds ih =>
    by_cases hlast : i = 256
    · rw [retry_loop_ends (by omega)]
      exact ⟨ret, hret, rfl⟩
    by_cases hrealloc : realloc (1024 + 8192 * i) = true
    · obtain ⟨ret', hret', hround⟩ := retry_loop_grows sock rounds ret
        (show 1024 + 8192 * i < 2 * 1024 * 1024 by omega) hrealloc (.inl rfl)
      rw [hround, show 1024 + 8192 * i + 8192 = 1024 + 8192 * (i + 1) by omega]
      exact ih (by omega) (by omega) hret'
    · rw [retry_loop_refused (by omega) hrealloc]
      exact refused_text

/-- A text is offered as a whole where there is room for it, and otherwise nothing is sent. -/
theorem writer_cases (writer : Writer) (sock : Outlet) (text : Bytes) :
    (text ≠ [] ∧ writer.Room text → writer.sock_write_fmt sock text = offer sock text) ∧
      (¬ (text ≠ [] ∧ writer.Room text) → Refused sock (writer.sock_write_fmt sock text)) := by
  cases writer with
  | new malloc => exact sock_write_fmt_cases malloc sock text
  | old realloc =>
    by_cases htext : text = []
    · subst htext
      exact ⟨fun h => absurd rfl h.1, fun _ =>
        retry_loop_empty (i := 0) rfl (by decide) (by decide)⟩
    · obtain ⟨hroom, hnone⟩ :=
        retry_loop_cases realloc sock (i := 0) htext rfl (by decide : (-1 : Int) ≤ 0)
          (by decide) fun j hj => absurd hj (Nat.not_lt_zero j)
      exact ⟨fun h => hroom h.2, fun h => hnone fun hroom => h ⟨htext, hroom⟩⟩

end Texts

/-! ## Lines -/

/-- A blocking socket takes all that is offered. -/
def Eager (sock : Outlet) : Prop := ∀ n, ∃ m, 2 ^ 31 ≤ m ∧ sock.answers n = some m

/-- The lines are written one after the other, each with its end. The results are those of the
calls. -/
def write_lines (writer : Writer) (sock : Outlet) : List Bytes → C (List Int × Outlet)
  | [] => return ([], sock)
  | line :: lines => do
    let (ret, sock) ← writer.sock_write_fmt sock (line ++ [CR, LF])
    let (rets, sock) ← write_lines writer sock lines
    return (ret :: rets, sock)

/-- A line that comes through. -/
structure Sendable (writer : Writer) (line : Bytes) : Prop where
  text : ∀ c ∈ line, c ≠ CR ∧ c ≠ LF ∧ c ≠ 0
  room : writer.Room (line ++ [CR, LF])

section Lines

variable {writer : Writer} {sock : Outlet} {line text : Bytes} {lines buffs : List Bytes}

theorem Writer.Room.lt (h : writer.Room text) : text.length < 2 ^ 31 := by
  cases writer with
  | new malloc =>
    obtain h | ⟨h, -⟩ := h <;> omega
  | old realloc =>
    obtain ⟨i, hi, h, -⟩ := h
    omega

theorem offer_eager (h : Eager sock) (hfits : text.length < 2 ^ 31) :
    ∃ sock', offer sock text = .ok (text.length, sock') ∧ sock'.sent = sock.sent ++ text ∧
      Eager sock' := by
  obtain ⟨m, hm, hanswer⟩ := h 0
  have htake : min m text.length = text.length := Nat.min_eq_right (by omega)
  refine ⟨{ sent := sock.sent ++ text, answers := fun call => sock.answers (call + 1) }, ?_, rfl,
    fun n => h (n + 1)⟩
  unfold offer send
  rw [hanswer]
  dsimp only
  rw [htake, wrap_of_fits (by omega) (by omega), List.take_of_length_le (by omega)]
  rfl

theorem write_lines_eager (h : Eager sock) (hlines : ∀ line ∈ lines, Sendable writer line) :
    ∃ sock', write_lines writer sock lines =
      .ok (lines.map fun line => (line.length + 2 : Int), sock') ∧
      sock'.sent = sock.sent ++ lines.flatMap fun line => line ++ [CR, LF] := by
  induction lines generalizing sock with
  | nil => exact ⟨sock, rfl, by simp⟩
  | cons line lines ih =>
    obtain ⟨hline, hlines⟩ := List.forall_mem_cons.mp hlines
    have htext : line ++ [CR, LF] ≠ [] := by simp
    obtain ⟨sock1, hrun, hsent, h1⟩ := offer_eager h hline.room.lt
    obtain ⟨sock', hrest, hsent'⟩ := ih h1 hlines
    refine ⟨sock', ?_, ?_⟩
    · rw [write_lines, (writer_cases writer sock _).1 ⟨htext, hline.room⟩, hrun, ok_bind]
      dsimp only
      rw [hrest]
      simp
    · rw [hsent', hsent, List.flatMap_cons, List.append_assoc]

theorem line_of_sent {room : Nat} {rest : Bytes} (hline : ∀ c ∈ line, c ≠ CR ∧ c ≠ LF ∧ c ≠ 0)
    (hroom : line.length < room) :
    line_of room (line ++ CR :: LF :: rest) = some (line, rest) := by
  induction line generalizing room with
  | nil =>
    rw [List.length_nil] at hroom
    rw [List.nil_append, line_of, if_neg (not_or.mpr ⟨by decide, by omega⟩), if_pos rfl, line_of,
      if_pos (.inl rfl)]
  | cons c line ih =>
    obtain ⟨hc, hline⟩ := List.forall_mem_cons.mp hline
    rw [List.length_cons] at hroom
    rw [List.cons_append, line_of, if_neg (not_or.mpr ⟨hc.2.1, by omega⟩), if_neg hc.1,
      ih hline (by omega)]
    rfl

/-- What was written is read, line by line, and nothing behind it. -/
theorem read_lines_sent {reader : Socket} {more : List Bytes}
    (hlines : ∀ line ∈ lines, Sendable writer line)
    (hstream : reader.stream = lines.flatMap fun line => line ++ [CR, LF])
    (hbuffs : List.Forall₂ (fun line buff => line.length < buff.length) lines buffs)
    (hmore : ∀ buff ∈ more, buff ≠ []) :
    read_lines reader (buffs ++ more) = .ok (lines, reader.behind []) := by
  induction hbuffs generalizing reader with
  | nil =>
    have hend : reader = reader.behind [] := by
      rw [Socket.behind, ← show reader.stream = [] from hstream]
    cases more with
    | nil => rw [← hend]; rfl
    | cons buff more =>
      have hnone : line_of buff.length reader.stream = none := by
        rw [show reader.stream = [] from hstream]
        rfl
      rw [List.nil_append, read_lines_end hnone (hmore buff List.mem_cons_self), ← hend]
  | @cons line buff lines buffs hroom _ ih =>
    obtain ⟨hline, hlines⟩ := List.forall_mem_cons.mp hlines
    have hread :
        line_of buff.length reader.stream =
        some (line, lines.flatMap fun line => line ++ [CR, LF]) := by
      rw [hstream, List.flatMap_cons, List.append_assoc]
      exact line_of_sent hline.text hroom
    have hstring : line.takeWhile (· != 0) = line :=
      List.takeWhile_eq_self_iff.mpr (all_ne fun hmem => (hline.text 0 hmem).2.2 rfl)
    rw [List.cons_append, read_lines_line hread hroom, ih hlines rfl, ok_bind, hstring]
    rfl

/-- **Lines come through.** Each call of `sock_write_fmt` offers its text as a whole, or sends
nothing. Lines for which there is room, written one after the other to a socket that takes them, are
what `sock_read_line` reads at its other end, with buffers that are longer than the lines, and no
line more. -/
theorem lines_come_through (writer : Writer) :
    (∀ sock text,
      (text ≠ [] ∧ writer.Room text → writer.sock_write_fmt sock text = offer sock text) ∧
      (¬ (text ≠ [] ∧ writer.Room text) → Refused sock (writer.sock_write_fmt sock text))) ∧
    ∀ sock lines, Eager sock → (∀ line ∈ lines, Sendable writer line) →
      ∃ sock' stream, write_lines writer sock lines =
      .ok (lines.map fun line => (line.length + 2 : Int), sock') ∧
        sock'.sent = sock.sent ++ stream ∧
        ∀ (reader : Socket) (buffs more : List Bytes), reader.stream = stream →
          List.Forall₂ (fun line buff => line.length < buff.length) lines buffs →
          (∀ buff ∈ more, buff ≠ []) →
          read_lines reader (buffs ++ more) = .ok (lines, reader.behind []) := by
  refine ⟨writer_cases writer, fun sock lines heager hlines => ?_⟩
  obtain ⟨sock', hrun, hsent⟩ := write_lines_eager heager hlines
  exact ⟨sock', _, hrun, hsent, fun reader buffs more hstream hbuffs hmore =>
    read_lines_sent hlines hstream hbuffs hmore⟩

end Lines

/-- A greeting and an empty line, in the old build. -/
def greeting : List Bytes := [ascii "hello", []]

theorem greeting_sendable : ∀ line ∈ greeting, Sendable (.old fun _ => true) line := by
  have hroom (line : Bytes) (hline : line.length < 1000) :
      (Writer.old fun _ => true).Room (line ++ [CR, LF]) :=
    ⟨0, by decide, by simp; omega, fun _ _ => rfl⟩
  unfold greeting
  simp only [List.forall_mem_cons]
  exact ⟨⟨by decide +kernel, hroom _ (by decide +kernel)⟩, ⟨by simp, hroom _ (by decide)⟩, by simp⟩

theorem lines_come_through_greeting : ∃ sock' stream,
    write_lines (.old fun _ => true) ⟨[], fun _ => some (2 ^ 31)⟩ greeting = .ok ([7, 2], sock') ∧
      sock'.sent = stream ∧
      read_lines ⟨stream, 0, Int.le_refl 0⟩ [List.replicate 8 0, List.replicate 1 0,
      List.replicate 8 0] =
        .ok (greeting, ⟨[], 0, Int.le_refl 0⟩) := by
  obtain ⟨sock', stream, hwrite, hsent, hread⟩ :=
    (lines_come_through (.old fun _ => true)).2 ⟨[], fun _ => some (2 ^ 31)⟩ greeting
      (fun n => ⟨2 ^ 31, Nat.le_refl _, rfl⟩) greeting_sendable
  refine ⟨sock', stream, hwrite, hsent, ?_⟩
  exact hread ⟨stream, 0, Int.le_refl 0⟩ [List.replicate 8 0, List.replicate 1 0]
    [List.replicate 8 0] rfl
    (.cons (by decide) (.cons (by decide) .nil)) (by simp)

end Net
