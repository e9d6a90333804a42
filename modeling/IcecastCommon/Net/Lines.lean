import IcecastCommon.Lib.Strings
import IcecastCommon.Net.Code

/-!
# Lines from a socket

A byte is received before it is known whether there is room for it.
-/

namespace Net

open Lib

/-! ## One line -/

/-- What is stored of a line where there is room for `room` bytes, and what is left of the stream.
`none` if the stream ends. -/
def line_of (room : Nat) : Bytes → Option (Bytes × Bytes)
  | [] => none
  | c :: stream =>
    if c = LF ∨ room = 0 then some ([], stream)
    else if c = CR then line_of room stream
    else (line_of (room - 1) stream).map fun line => (c :: line.1, line.2)

/-- A stream without its carriage returns. -/
def plain (stream : Bytes) : Bytes := stream.filter (· != CR)

/-- There is one more byte where the buffer has none, before the line ends. -/
def Overfull (room : Nat) (stream : Bytes) : Prop :=
  ∃ front c rest, stream = front ++ c :: rest ∧ LF ∉ front ∧ (plain front).length = room

@[simp] theorem plain_append (u v : Bytes) : plain (u ++ v) = plain u ++ plain v :=
  List.filter_append ..

theorem plain_CR (stream : Bytes) : plain (CR :: stream) = plain stream :=
  List.filter_cons_of_neg (by simp)

theorem plain_cons {c : Byte} (hc : c ≠ CR) (stream : Bytes) :
    plain (c :: stream) = c :: plain stream :=
  List.filter_cons_of_pos (by simpa using hc)

section Line

variable {room : Nat} {stream text rest : Bytes}

theorem line_of_parts (h : line_of room stream = some (text, rest)) :
    ∃ front c, stream = front ++ c :: rest ∧ LF ∉ front ∧ plain front = text ∧ text.length ≤ room ∧
      (text.length < room → c = LF) := by
  induction stream generalizing room text with
  | nil => exact nomatch h
  | cons c stream ih =>
    unfold line_of at h
    split_ifs at h with hend hc
    · obtain ⟨rfl, rfl⟩ := Prod.mk.inj (Option.some.inj h)
      exact ⟨[], c, rfl, List.not_mem_nil, rfl, Nat.zero_le _, fun hroom =>
        hend.resolve_right (Nat.ne_of_gt hroom)⟩
    · obtain ⟨front, c', rfl, hfront, hplain, hlength⟩ := ih h
      rw [not_or] at hend
      refine ⟨c :: front, c', rfl, List.not_mem_cons_of_ne_of_not_mem (Ne.symm hend.1) hfront, ?_,
        hlength⟩
      rw [hc, plain_CR, hplain]
    · obtain ⟨line, hline, hpair⟩ := Option.map_eq_some_iff.mp h
      obtain ⟨rfl, rfl⟩ := Prod.mk.inj hpair
      rw [not_or] at hend
      obtain ⟨front, c', rfl, hfront, hplain, hle, hend'⟩ := ih hline
      refine ⟨c :: front, c', rfl, List.not_mem_cons_of_ne_of_not_mem (Ne.symm hend.1) hfront, ?_,
        ?_, fun hroom => hend' ?_⟩
      · rw [plain_cons hc, hplain]
      · rw [List.length_cons]
        omega
      · rw [List.length_cons] at hroom
        omega

theorem line_of_length (h : line_of room stream = some (text, rest)) : text.length ≤ room := by
  obtain ⟨front, c, -, -, -, hle, -⟩ := line_of_parts h
  exact hle

theorem line_of_whole (h : line_of room stream = some (text, rest)) (hroom : text.length < room) :
    ∃ front, stream = front ++ LF :: rest ∧ LF ∉ front ∧ plain front = text := by
  obtain ⟨front, c, hstream, hfront, hplain, -, hend⟩ := line_of_parts h
  exact ⟨front, hend hroom ▸ hstream, hfront, hplain⟩

theorem line_of_full (h : line_of room stream = some (text, rest)) (hroom : text.length = room) :
    Overfull room stream := by
  obtain ⟨front, c, hstream, hfront, hplain, -, -⟩ := line_of_parts h
  exact ⟨front, c, rest, hstream, hfront, hplain ▸ hroom⟩

theorem line_of_room (h : line_of room stream = some (text, rest))
    (hfull : ¬ Overfull room stream) : text.length < room :=
  (line_of_length h).lt_of_ne fun hroom => hfull (line_of_full h hroom)

theorem overfull_line (h : Overfull room stream) :
    ∃ text rest, line_of room stream = some (text, rest) ∧ text.length = room := by
  obtain ⟨front, c, rest, rfl, hfront, hplain⟩ := h
  induction front generalizing room with
  | nil =>
    obtain rfl : 0 = room := hplain
    exact ⟨[], rest, if_pos (.inr rfl), rfl⟩
  | cons b front ih =>
    rw [List.mem_cons, not_or] at hfront
    rw [List.cons_append, line_of]
    by_cases hroom : room = 0
    · rw [if_pos (.inr hroom)]
      exact ⟨[], _, rfl, hroom.symm⟩
    rw [if_neg (not_or.mpr ⟨Ne.symm hfront.1, hroom⟩)]
    by_cases hb : b = CR
    · rw [hb, plain_CR] at hplain
      rw [if_pos hb]
      exact ih hfront.2 hplain
    · rw [plain_cons hb, List.length_cons] at hplain
      rw [if_neg hb]
      obtain ⟨text, rest', hline, htext⟩ :=
        ih hfront.2 (show (plain front).length = room - 1 by omega)
      refine ⟨b :: text, rest', by rw [hline]; rfl, ?_⟩
      rw [List.length_cons, htext]
      omega

theorem line_of_end (h : line_of room stream = none) : LF ∉ stream := by
  induction stream generalizing room with
  | nil => exact List.not_mem_nil
  | cons c stream ih =>
    unfold line_of at h
    split_ifs at h with hend hc
    all_goals rw [not_or] at hend
    · exact List.not_mem_cons_of_ne_of_not_mem (Ne.symm hend.1) (ih h)
    · exact List.not_mem_cons_of_ne_of_not_mem (Ne.symm hend.1) (ih (Option.map_eq_none_iff.mp h))

end Line

/-! ## The loop -/

/-- The socket behind a line. -/
def Socket.behind (sock : Socket) (rest : Bytes) : Socket := { sock with stream := rest }

section Loop

variable {len pos read_bytes : Int} {fuel : Nat} {c : Byte} {buff : Bytes} {sock : Socket}

theorem read_loop_stop (h : ¬ (c ≠ LF ∧ pos < len ∧ read_bytes = 1)) :
    read_loop len (fuel + 1) c read_bytes pos buff sock = .ok (read_bytes, pos, buff, sock) := by
  unfold read_loop
  rw [if_neg h]
  rfl

theorem read_loop_CR (hpos : pos < len) :
    read_loop len (fuel + 1) CR 1 pos buff sock =
      read_loop len fuel (recv sock CR).2.1 (recv sock CR).1 pos buff (recv sock CR).2.2 := by
  rw [read_loop, if_pos ⟨by decide, hpos, rfl⟩, if_neg (not_not.mpr rfl)]
  rfl

theorem read_loop_store {done : Bytes} {b : Byte} (hLF : c ≠ LF) (hCR : c ≠ CR)
    (hpos : (done.length : Int) < len) :
    read_loop len (fuel + 1) c 1 done.length (done ++ b :: buff) sock =
      read_loop len fuel (recv sock c).2.1 (recv sock c).1 (done ++ [c]).length
        (done ++ [c] ++ buff) (recv sock c).2.2 := by
  rw [read_loop, if_pos ⟨hLF, hpos, rfl⟩, if_pos hCR, store_middle]
  simp only [ok_bind, pure_eq_ok, List.length_append, List.length_singleton, List.append_assoc,
    List.singleton_append]
  rfl

end Loop

variable {sock : Socket} {len fuel : Nat} {c : Byte} {done buff text stream rest : Bytes}

theorem read_loop_line (hline : line_of buff.length (c :: stream) = some (text, rest))
    (hroom : done.length + buff.length = len) (hfuel : stream.length < fuel) :
    read_loop len fuel c 1 done.length (done ++ buff) (sock.behind stream) =
      .ok (1, (done ++ text).length, done ++ text ++ buff.drop text.length, sock.behind rest) := by
  induction fuel generalizing c done buff text stream with
  | zero => exact absurd hfuel (Nat.not_lt_zero _)
  | succ fuel ih =>
    rw [line_of] at hline
    by_cases hend : c = LF ∨ buff.length = 0
    · rw [if_pos hend] at hline
      obtain ⟨rfl, rfl⟩ := Prod.mk.inj (Option.some.inj hline)
      rw [read_loop_stop fun hgo => hend.elim hgo.1 fun hzero => by have hpos := hgo.2.1; omega]
      simp
    rw [if_neg hend] at hline
    rw [not_or] at hend
    have hpos : (done.length : Int) < len := by omega
    match stream with
    | [] => split_ifs at hline <;> exact nomatch hline
    | c' :: stream =>
      rw [List.length_cons] at hfuel
      by_cases hc : c = CR
      · rw [if_pos hc] at hline
        rw [hc, read_loop_CR hpos]
        exact ih hline hroom (by omega)
      rw [if_neg hc] at hline
      obtain ⟨line, hnext, hpair⟩ := Option.map_eq_some_iff.mp hline
      obtain ⟨rfl, rfl⟩ := Prod.mk.inj hpair
      obtain ⟨b, buff, rfl⟩ :=
        List.exists_cons_of_ne_nil (List.ne_nil_of_length_pos (Nat.pos_of_ne_zero hend.2))
      rw [read_loop_store hend.1 hc hpos]
      have hleft : (done ++ [c]).length + buff.length = len := by
        simp at hroom ⊢
        omega
      have hrest := ih hnext hleft (by omega)
      simp only [List.append_assoc, List.singleton_append, List.length_cons,
        List.drop_succ_cons] at hrest ⊢
      exact hrest

theorem read_loop_end (hline : line_of buff.length (c :: stream) = none)
    (hroom : done.length + buff.length = len) (hfuel : stream.length + 1 < fuel) :
    ∃ pos buff', read_loop len fuel c 1 done.length (done ++ buff) (sock.behind stream) =
      .ok (sock.ended, pos, buff', sock.behind []) := by
  induction fuel generalizing c done buff stream with
  | zero => exact absurd hfuel (Nat.not_lt_zero _)
  | succ fuel ih =>
    rw [line_of] at hline
    by_cases hend : c = LF ∨ buff.length = 0
    · rw [if_pos hend] at hline
      exact nomatch hline
    rw [if_neg hend] at hline
    rw [not_or] at hend
    have hpos : (done.length : Int) < len := by omega
    obtain ⟨fuel, rfl⟩ : ∃ k, fuel = k + 1 := Nat.exists_eq_succ_of_ne_zero (by omega)
    have hended (c : Byte) (pos : Int) (buff : Bytes) :
        read_loop len (fuel + 1) c sock.ended pos buff (sock.behind []) =
          .ok (sock.ended, pos, buff, sock.behind []) :=
      read_loop_stop fun hgo => by have hnone := sock.none_left; omega
    by_cases hc : c = CR
    · rw [if_pos hc] at hline
      rw [hc, read_loop_CR hpos]
      match stream with
      | [] => exact ⟨_, _, hended _ _ _⟩
      | c' :: stream => exact ih hline hroom (by simpa using hfuel)
    · rw [if_neg hc] at hline
      obtain ⟨b, buff, rfl⟩ :=
        List.exists_cons_of_ne_nil (List.ne_nil_of_length_pos (Nat.pos_of_ne_zero hend.2))
      rw [read_loop_store hend.1 hc hpos]
      match stream with
      | [] => exact ⟨_, _, hended _ _ _⟩
      | c' :: stream =>
        exact ih (Option.map_eq_none_iff.mp hline) (by simp at hroom ⊢; omega)
          (by simpa using hfuel)

theorem length_not_le (hbuff : buff ≠ []) : ¬ ((buff.length : Int) ≤ 0) := by
  have hpos := List.length_pos_of_ne_nil hbuff
  omega

theorem sock_read_line_line (hline : line_of buff.length sock.stream = some (text, rest))
    (hbuff : buff ≠ []) :
    sock_read_line sock (some buff) buff.length =
      if text.length < buff.length then
      .ok (1, some (text ++ 0 :: buff.drop (text.length + 1)), sock.behind rest)
      else .error .bounds := by
  have hpos := length_not_le hbuff
  obtain ⟨stream, ended, hnone⟩ := sock
  match stream with
  | [] => exact nomatch hline
  | c :: stream =>
    have hloop :=
      @read_loop_line ⟨c :: stream, ended, hnone⟩ buff.length
        (stream.length + 2) c [] buff text stream rest hline
      (Nat.zero_add _) (by omega)
    simp only [List.nil_append, List.length_nil] at hloop
    unfold sock_read_line
    dsimp only [recv]
    rw [if_neg hpos, if_neg (by decide)]
    refine (congrArg (· >>= _) hloop).trans ?_
    rw [ok_bind]
    dsimp only
    rw [if_pos rfl]
    split_ifs with hroom
    · have hdrop : buff.drop text.length = buff[text.length] :: buff.drop (text.length + 1) :=
        List.drop_eq_getElem_cons hroom
      rw [hdrop, store_middle]
      rfl
    · have hlength := line_of_length hline
      have hstore : store (text ++ buff.drop text.length) text.length 0 = .error .bounds := by
        unfold store
        rw [if_neg]
        · rfl
        · simp
          omega
      rw [hstore]
      rfl

theorem sock_read_line_end (hline : line_of buff.length sock.stream = none) (hbuff : buff ≠ []) :
    ∃ buff' sock', sock_read_line sock (some buff) buff.length = .ok (0, some buff', sock') := by
  have hpos := length_not_le hbuff
  obtain ⟨stream, ended, hnone⟩ := sock
  have hended : ended ≠ 1 := by omega
  unfold sock_read_line
  dsimp only
  rw [if_neg hpos]
  match stream with
  | [] =>
    dsimp only [recv]
    by_cases hneg : ended < 0
    · exact ⟨buff, ⟨[], ended, hnone⟩, if_pos hneg⟩
    · refine ⟨buff, ⟨[], ended, hnone⟩, (if_neg hneg).trans ?_⟩
      rw [read_loop_stop (fun hgo => hended hgo.2.2), ok_bind]
      exact if_neg hended
  | c :: stream =>
    obtain ⟨pos, buff', hloop⟩ :=
      @read_loop_end ⟨c :: stream, ended, hnone⟩ buff.length (stream.length + 2) c [] buff stream
        hline (Nat.zero_add _) (by omega)
    simp only [List.nil_append, List.length_nil] at hloop
    dsimp only [recv]
    refine ⟨buff', ⟨[], ended, hnone⟩,
      (if_neg (by decide)).trans ((congrArg (· >>= _) hloop).trans ?_)⟩
    rw [ok_bind]
    exact if_neg hended

/-! ## Sequences of calls -/

/-- The strings of calls with buffers of these sizes, up to the first call that does not succeed. -/
def read_lines (sock : Socket) : List Bytes → C (List Bytes × Socket)
  | [] => return ([], sock)
  | buff :: buffs => do
    let (ret, buff, sock') ← sock_read_line sock (some buff) buff.length
    if ret = 1 then
      let string ← cstring (buff.getD [])
      let (strings, sock') ← read_lines sock' buffs
      return (string :: strings, sock')
    else return ([], sock)

/-- A string is a part of the stream, without its carriage returns and the line feed
that ended it. -/
def LineOf (part string : Bytes) : Prop := plain part = string ∨ plain part = string ++ [LF]

/-- The calls store into their buffers only, and their strings are what they took from
the stream. -/
def ReadsWhole (sock : Socket) (buffs : List Bytes) : Prop :=
  ∃ strings sock', read_lines sock buffs = .ok (strings, sock') ∧
    ∃ parts : List Bytes, sock.stream = parts.flatten ++ sock'.stream ∧
      List.Forall₂ LineOf parts strings

/-- No call finds one more byte than its buffer has, and the lines that are read have no NUL. -/
def Fits : Bytes → List Nat → Prop
  | _, [] => True
  | stream, len :: lens =>
    ¬ Overfull len stream ∧
      ∀ front rest, stream = front ++ LF :: rest → LF ∉ front → 0 ∉ front ∧ Fits rest lens

section Sequences

variable {buffs : List Bytes}

theorem plain_mem {u : Bytes} {c : Byte} (hc : c ≠ CR) : c ∈ plain u ↔ c ∈ u := by
  simp [plain, hc]

theorem read_lines_line (hline : line_of buff.length sock.stream = some (text, rest))
    (hroom : text.length < buff.length) :
    read_lines sock (buff :: buffs) = do
      let (strings, sock') ← read_lines (sock.behind rest) buffs
      return (text.takeWhile (· != 0) :: strings, sock') := by
  have hbuff : buff ≠ [] := List.ne_nil_of_length_pos (Nat.zero_lt_of_lt hroom)
  have hcall := sock_read_line_line hline hbuff
  rw [if_pos hroom] at hcall
  rw [read_lines, hcall, ok_bind]
  dsimp only
  rw [if_pos rfl, Option.getD_some, cstring_cut, ok_bind]

theorem read_lines_end (hline : line_of buff.length sock.stream = none) (hbuff : buff ≠ []) :
    read_lines sock (buff :: buffs) = .ok ([], sock) := by
  obtain ⟨buff', sock', hcall⟩ := sock_read_line_end hline hbuff
  rw [read_lines, hcall, ok_bind]
  rfl

theorem read_lines_full (hfull : Overfull buff.length sock.stream) (hbuff : buff ≠ []) :
    read_lines sock (buff :: buffs) = .error .bounds := by
  obtain ⟨text, rest, hline, hlength⟩ := overfull_line hfull
  have hcall := sock_read_line_line hline hbuff
  rw [if_neg (by omega)] at hcall
  rw [read_lines, hcall]
  rfl

theorem fits_line {lens : List Nat} (hline : line_of len stream = some (text, rest))
    (hroom : text.length < len) (hnul : 0 ∉ text) (hrest : Fits rest lens) :
    Fits stream (len :: lens) := by
  obtain ⟨front, hstream, hfront, rfl⟩ := line_of_whole hline hroom
  refine ⟨fun hfull => ?_, fun front' rest' hstream' hfront' => ?_⟩
  · obtain ⟨text', rest', hline', hlength⟩ := overfull_line hfull
    obtain ⟨rfl, -⟩ := Prod.mk.inj (Option.some.inj (hline.symm.trans hline'))
    exact hroom.ne hlength
  · obtain ⟨rfl, rfl⟩ := first_unique hfront hfront' (hstream.symm.trans hstream')
    exact ⟨fun hmem => hnul ((plain_mem (by decide)).mpr hmem), hrest⟩

theorem fits_end {lens : List Nat} (hline : line_of len stream = none) :
    Fits stream (len :: lens) := by
  refine ⟨fun hfull => ?_, fun front rest hstream _ => ?_⟩
  · obtain ⟨text, rest, hline', -⟩ := overfull_line hfull
    exact nomatch hline.symm.trans hline'
  · exact absurd (hstream ▸ List.mem_append_right _ List.mem_cons_self) (line_of_end hline)

theorem reads_whole (hbuffs : ∀ buff ∈ buffs, buff ≠ [])
    (hfits : Fits sock.stream (buffs.map List.length)) :
    ReadsWhole sock buffs := by
  induction buffs generalizing sock with
  | nil => exact ⟨[], sock, rfl, [], rfl, .nil⟩
  | cons buff buffs ih =>
    have hbuff : buff ≠ [] := hbuffs buff List.mem_cons_self
    obtain ⟨hfull, hrest⟩ := hfits
    cases hline : line_of buff.length sock.stream with
    | none => exact ⟨[], sock, read_lines_end hline hbuff, [], rfl, .nil⟩
    | some line =>
      obtain ⟨text, rest⟩ := line
      have hroom : text.length < buff.length := line_of_room hline hfull
      obtain ⟨front, hstream, hfront, rfl⟩ := line_of_whole hline hroom
      obtain ⟨hnul, hfits⟩ := hrest front rest hstream hfront
      obtain ⟨strings, sock', hrun, parts, hparts, hlines⟩ :=
        @ih (sock.behind rest) (fun buff hmem => hbuffs buff (List.mem_cons_of_mem _ hmem)) hfits
      have hstring : (plain front).takeWhile (· != 0) = plain front :=
        List.takeWhile_eq_self_iff.mpr (all_ne fun hmem => hnul ((plain_mem (by decide)).mp hmem))
      refine ⟨plain front :: strings, sock', ?_, (front ++ [LF]) :: parts, ?_,
        .cons (.inr ?_) hlines⟩
      · rw [read_lines_line hline hroom, hrun, hstring]
        rfl
      · have hrest : rest = parts.flatten ++ sock'.stream := hparts
        rw [hstream, hrest]
        simp
      · rw [plain_append]
        rfl

/-! ### What is missing -/

theorem parts_length {parts strings : List Bytes} (h : List.Forall₂ LineOf parts strings) :
    (plain parts.flatten).length ≤ strings.flatten.length + strings.length := by
  induction h with
  | nil => exact Nat.zero_le _
  | @cons part string parts strings hpart _ ih =>
    have hlength : (plain part).length ≤ string.length + 1 := by
      rcases hpart with hpart | hpart
      · rw [hpart]
        exact Nat.le_succ _
      · rw [hpart, List.length_append, List.length_singleton]
    rw [List.flatten_cons, plain_append, List.length_append, List.flatten_cons, List.length_append,
      List.length_cons]
    omega

theorem taken_length {strings : List Bytes} {sock' : Socket} (hbuffs : ∀ buff ∈ buffs, buff ≠ [])
    (hrun : read_lines sock buffs = .ok (strings, sock')) :
    strings.flatten.length + strings.length + (plain sock'.stream).length ≤
      (plain sock.stream).length ∧
      ((plain sock.stream).length ≤ strings.flatten.length + strings.length +
      (plain sock'.stream).length →
        Fits sock.stream (buffs.map List.length)) := by
  induction buffs generalizing sock strings with
  | nil =>
    obtain ⟨rfl, rfl⟩ := Prod.mk.inj (Except.ok.inj hrun)
    exact ⟨by simp, fun _ => trivial⟩
  | cons buff buffs ih =>
    have hbuff : buff ≠ [] := hbuffs buff List.mem_cons_self
    have hfull : ¬ Overfull buff.length sock.stream := fun hfull => by
      rw [read_lines_full hfull hbuff] at hrun
      exact nomatch hrun
    cases hline : line_of buff.length sock.stream with
    | none =>
      rw [read_lines_end hline hbuff] at hrun
      obtain ⟨rfl, rfl⟩ := Prod.mk.inj (Except.ok.inj hrun)
      exact ⟨by simp, fun _ => fits_end hline⟩
    | some line =>
      obtain ⟨text, rest⟩ := line
      have hroom : text.length < buff.length := line_of_room hline hfull
      obtain ⟨front, hstream, hfront, rfl⟩ := line_of_whole hline hroom
      rw [read_lines_line hline hroom] at hrun
      obtain ⟨⟨strings, sock1⟩, hnext, hresult⟩ := bind_eq_ok.mp hrun
      obtain ⟨rfl, rfl⟩ := Prod.mk.inj (Except.ok.inj hresult)
      obtain ⟨hleast, hmost⟩ :=
        ih (fun buff hmem => hbuffs buff (List.mem_cons_of_mem _ hmem)) hnext
      have hlength :
          (plain sock.stream).length = (plain front).length + 1 + (plain rest).length := by
        rw [hstream, plain_append, plain_cons (by decide)]
        simp
        omega
      have hle := (List.takeWhile_sublist (p := (· != 0)) (l := plain front)).length_le
      simp only [List.flatten_cons, List.length_append, List.length_cons, hlength]
      change _ + _ + _ ≤ (plain rest).length at hleast
      refine ⟨by omega, fun hall => fits_line hline hroom (fun hmem => ?_) (hmost ?_)⟩
      · have hsame : (plain front).takeWhile (· != 0) = plain front :=
          (List.takeWhile_sublist _).eq_of_length_le (by omega)
        exact absurd (List.takeWhile_eq_self_iff.mp hsame 0 hmem) (by decide)
      · change (plain rest).length ≤ _
        omega

/-- **Lines are read whole, and into their buffers**, exactly if no buffer is one byte too short,
and no line has a NUL. -/
theorem reads_whole_iff (sock : Socket) (hbuffs : ∀ buff ∈ buffs, buff ≠ []) :
    ReadsWhole sock buffs ↔ Fits sock.stream (buffs.map List.length) := by
  refine ⟨?_, reads_whole hbuffs⟩
  rintro ⟨strings, sock', hrun, parts, hparts, hlines⟩
  have hlength := parts_length hlines
  refine (taken_length hbuffs hrun).2 ?_
  rw [hparts, plain_append, List.length_append]
  omega

end Sequences

/-- A connection that is closed behind these bytes. -/
def closed (stream : Bytes) : Socket := ⟨stream, 0, Int.le_refl 0⟩

theorem reads_whole_two : ReadsWhole (closed (ascii "ab\r\ncd\ne")) [[1, 1, 1], [1, 1, 1, 1]] :=
  (reads_whole_iff (closed (ascii "ab\r\ncd\ne")) (by simp)).mpr
    (fits_line (show line_of 3 _ = some (ascii "ab", ascii "cd\ne") from rfl)
      (by decide) (by decide)
      (fits_line (show line_of 4 _ = some (ascii "cd", ascii "e") from rfl) (by decide)
        (by decide) trivial))

/-- Two bytes for a line of two bytes. -/
theorem not_always_whole :
    ¬ ∀ (sock : Socket) (buffs : List Bytes), (∀ buff ∈ buffs, buff ≠ []) →
      ReadsWhole sock buffs := by
  intro h
  obtain ⟨strings, sock', hrun, -⟩ := h (closed (ascii "ab\n")) [[1, 1]] (by simp)
  have hfull : Overfull 2 (ascii "ab\n") := ⟨ascii "ab", LF, [], rfl, by decide, rfl⟩
  have hbounds : read_lines (closed (ascii "ab\n")) [[1, 1]] = .error .bounds :=
    read_lines_full hfull (by simp)
  exact nomatch hrun.symm.trans hbounds

/-- With one more byte in the block than `len` tells, the third byte of the line is lost. -/
example : sock_read_line (closed (ascii "abcd\n")) (some [1, 1, 1]) 2 =
    .ok (1, some (ascii "ab" ++ [0]), closed (ascii "d\n")) := by
  rfl

end Net
