import IcecastCommon.Encoding.Bounds

/-!
# Headers without a number

`__enc_chunked_read` gives up on a header in which `sscanf` finds no number, and leaves it in the
raw buffer with a NUL in it. Whatever comes behind it, every later call gives up on it again.
-/

namespace Encoding

open Lib

variable {σ : Type}

/-! ## The search over a text and what follows it -/

/-- What one byte does to the search, whatever follows. -/
theorem scan_loop_step (s : Scan) (i : Nat) (c : Byte) :
    (s.offset_CR = (i : Int) - 1 ∧ ∀ l, scan_loop s i (c :: l) = { s with offset_LF := i }) ∨
    ∃ s', (∀ l, scan_loop s i (c :: l) = scan_loop s' (i + 1) l) ∧
      ((∃ in_quote, s' = { s with in_quote := in_quote }) ∨
        (s.in_quote = 0 ∧ s.offset_extentions = -1 ∧ s' = { s with offset_extentions := i }) ∨
        (s.in_quote = 0 ∧ s' = { s with offset_CR := i })) := by
  by_cases hin : s.in_quote ≠ 0
  · exact .inr ⟨_, fun l => by rw [scan_loop, if_pos hin], .inl ⟨_, rfl⟩⟩
  have hout : s.in_quote = 0 := not_not.mp hin
  by_cases hquote : c = QUOTE
  · exact .inr ⟨_, fun l => by rw [scan_loop, if_neg hin, if_pos hquote], .inl ⟨_, rfl⟩⟩
  by_cases hsemi : c = ch ';' ∧ s.offset_extentions = -1
  · exact .inr ⟨_, fun l => by rw [scan_loop, if_neg hin, if_neg hquote, if_pos hsemi],
      .inr (.inl ⟨hout, hsemi.2, rfl⟩)⟩
  by_cases hCR : c = CR
  · exact .inr ⟨_, fun l => by rw [scan_loop, if_neg hin, if_neg hquote, if_neg hsemi, if_pos hCR],
      .inr (.inr ⟨hout, rfl⟩)⟩
  by_cases hend : c = LF ∧ s.offset_CR = (i : Int) - 1
  · exact .inl ⟨hend.2, fun l => by
      rw [scan_loop, if_neg hin, if_neg hquote, if_neg hsemi, if_neg hCR, if_pos hend]⟩
  · exact .inr ⟨s, fun l => by
      rw [scan_loop, if_neg hin, if_neg hquote, if_neg hsemi, if_neg hCR, if_neg hend],
      .inl ⟨_, rfl⟩⟩

theorem scan_loop_append {s : Scan} (i : Nat) (l rest : Bytes)
    (h : (scan_loop s i l).offset_LF = -1) :
    scan_loop s i (l ++ rest) = scan_loop (scan_loop s i l) (i + l.length) rest := by
  induction l generalizing s i with
  | nil => rfl
  | cons c l ih =>
    rw [List.length_cons, show i + (l.length + 1) = i + 1 + l.length by omega, List.cons_append]
    rcases scan_loop_step s i c with ⟨-, hstop⟩ | ⟨s', hgo, -⟩
    · rw [hstop] at h
      exact absurd (show (i : Int) = -1 from h) (by omega)
    · rw [hgo] at h ⊢
      rw [hgo]
      exact ih _ h

/-- Outside of quoted strings, with nothing found but maybe a CR before index `i`. -/
structure Blank (i : Nat) (s : Scan) : Prop where
  in_quote : s.in_quote = 0
  extentions : s.offset_extentions = -1
  LF : s.offset_LF = -1
  CR : s.offset_CR < i

theorem scan_loop_extentions {s : Scan} (i : Nat) (l : Bytes) (h : s.offset_extentions ≠ -1) :
    (scan_loop s i l).offset_extentions = s.offset_extentions := by
  induction l generalizing s i with
  | nil => rfl
  | cons c l ih =>
    rcases scan_loop_step s i c with ⟨-, hstop⟩ | ⟨s', hgo, ⟨q, rfl⟩ | ⟨-, hnone, -⟩ | ⟨-, rfl⟩⟩
    · rw [hstop]
    · rw [hgo]
      exact ih _ h
    · exact absurd hnone h
    · rw [hgo]
      exact ih _ h

theorem scan_loop_cut {s : Scan} (i : Nat) (l : Bytes) (hext : s.offset_extentions = -1)
    (hLF : s.offset_LF = -1) (hCR : s.offset_CR < i) (hfound : (scan_loop s i l).offset_LF ≠ -1) :
    (scan_loop s i l).cut = s.offset_CR ∨
    ∃ head c rest, l = head ++ c :: rest ∧ (scan_loop s i l).cut = (i + head.length : Nat) ∧
      Blank (i + head.length) (scan_loop s i head) := by
  induction l generalizing s i with
  | nil => exact absurd hLF hfound
  | cons c l ih =>
    have hhere (hout : s.in_quote = 0) (hcut : (scan_loop s i (c :: l)).cut = i) :
        ∃ head d rest, c :: l = head ++ d :: rest ∧
          (scan_loop s i (c :: l)).cut = (i + head.length : Nat) ∧
          Blank (i + head.length) (scan_loop s i head) :=
      ⟨[], c, l, rfl, hcut, hout, hext, hLF, hCR⟩
    have hbehind {s' : Scan} (hgo : ∀ l, scan_loop s i (c :: l) = scan_loop s' (i + 1) l)
        (h : ∃ head d rest, l = head ++ d :: rest ∧
          (scan_loop s' (i + 1) l).cut = (i + 1 + head.length : Nat) ∧
          Blank (i + 1 + head.length) (scan_loop s' (i + 1) head)) :
        ∃ head d rest, c :: l = head ++ d :: rest ∧
          (scan_loop s i (c :: l)).cut = (i + head.length : Nat) ∧
          Blank (i + head.length) (scan_loop s i head) := by
      obtain ⟨head, d, rest, rfl, hcut, hblank⟩ := h
      refine ⟨c :: head, d, rest, rfl, ?_⟩
      rw [hgo, hgo, List.length_cons, show i + (head.length + 1) = i + 1 + head.length by omega]
      exact ⟨hcut, hblank⟩
    rcases scan_loop_step s i c with ⟨-, hstop⟩ | ⟨s', hgo, ⟨q, rfl⟩ | ⟨hout, -, rfl⟩ | ⟨hout, rfl⟩⟩
    · left
      rw [hstop, Scan.cut, if_neg (not_not.mpr hext)]
    · rw [hgo] at hfound
      rcases ih (s := { s with in_quote := q }) (i + 1) hext hLF (by push_cast; omega) hfound
        with hcut | h
      · left
        rw [hgo, hcut]
      · exact .inr (hbehind hgo h)
    · right
      apply hhere hout
      have hset := scan_loop_extentions (s := { s with offset_extentions := i }) (i + 1) l (by simp)
      rw [hgo, Scan.cut, hset]
      exact if_pos (by simp)
    · rw [hgo] at hfound
      rcases ih (s := { s with offset_CR := i }) (i + 1) hext hLF (by push_cast; omega) hfound
        with hcut | h
      · right
        apply hhere hout
        rw [hgo, hcut]
      · exact .inr (hbehind hgo h)

theorem scan_loop_behind {s : Scan} {start : Nat} (i : Nat) (l : Bytes) (hle : start < i)
    (hext : s.offset_extentions = -1 ∨ start < s.offset_extentions)
    (hCR : s.offset_CR < start ∨ start < s.offset_CR) (hLF : s.offset_LF = -1)
    (hfound : (scan_loop s i l).offset_LF ≠ -1) : start < (scan_loop s i l).cut := by
  induction l generalizing s i with
  | nil => exact absurd hLF hfound
  | cons c l ih =>
    rcases scan_loop_step s i c with ⟨hend, hstop⟩ | ⟨s', hgo, ⟨q, rfl⟩ | ⟨-, -, rfl⟩ | ⟨-, rfl⟩⟩
    · rw [hstop]
      unfold Scan.cut
      split_ifs with hnone
      · exact hext.resolve_left hnone
      · show (start : Int) < s.offset_CR
        omega
    · rw [hgo] at hfound ⊢
      exact ih (i + 1) (by omega) hext hCR hLF hfound
    · rw [hgo] at hfound ⊢
      refine ih (i + 1) (by omega) (.inr ?_) hCR hLF hfound
      show (start : Int) < (i : Int)
      omega
    · rw [hgo] at hfound ⊢
      refine ih (i + 1) (by omega) hext (.inr ?_) hLF hfound
      show (start : Int) < (i : Int)
      omega

/-! ## A line that no search gets past -/

/-- A text that is no number, and a NUL that the search comes to outside of quoted strings. -/
def Jammed (i : Nat) (line : Bytes) : Prop :=
  ∃ head rest, line = head ++ 0 :: rest ∧ Blank (i + head.length) (scan_loop {} i head) ∧
    sscanf_llx (head.takeWhile (· != 0)) = none

theorem Jammed.append {i : Nat} {line : Bytes} (h : Jammed i line) (data : Bytes) :
    Jammed i (line ++ data) := by
  obtain ⟨head, rest, rfl, hblank, hno⟩ := h
  exact ⟨head, rest ++ data, by simp, hblank, hno⟩

theorem Jammed.lt {i : Nat} {raw : Bytes} (h : Jammed i (raw.drop i)) : i < raw.length := by
  obtain ⟨head, rest, hline, -⟩ := h
  have hlen := congrArg List.length hline
  rw [List.length_drop, List.length_append, List.length_cons] at hlen
  omega

theorem Jammed.text {i : Nat} {line : Bytes} (h : Jammed i line) :
    ∃ text, cstring line = .ok text ∧ sscanf_llx text = none := by
  obtain ⟨head, rest, rfl, -, hno⟩ := h
  exact ⟨_, cstring_cut head rest, hno⟩

theorem Jammed.again {i : Nat} {line : Bytes} (h : Jammed i line)
    (hfound : (scan_loop {} i line).offset_LF ≠ -1) :
    Jammed i (line.set ((scan_loop {} i line).cut.toNat - i) 0) := by
  obtain ⟨head, rest, rfl, hblank, hno⟩ := h
  have hnul : scan_loop (scan_loop {} i head) (i + head.length) (0 :: rest) =
      scan_loop (scan_loop {} i head) (i + head.length + 1) rest := by
    rw [scan_loop, if_neg (not_not.mpr hblank.in_quote), if_neg (by decide),
      if_neg (fun h => absurd h.1 (by decide)),
      if_neg (by decide), if_neg (fun h => absurd h.1 (by decide))]
  rw [scan_loop_append i head _ hblank.LF, hnul] at hfound ⊢
  have hbehind :=
    scan_loop_behind (i + head.length + 1) rest (Nat.lt_succ_self _) (.inl hblank.extentions)
      (.inl hblank.CR) hblank.LF hfound
  generalize (scan_loop (scan_loop {} i head) (i + head.length + 1) rest).cut = cut at hbehind ⊢
  refine ⟨head, rest.set (cut.toNat - i - head.length - 1) 0, ?_, hblank, hno⟩
  rw [List.set_append_right _ _ (by omega)]
  obtain ⟨k, hk⟩ : ∃ k, cut.toNat - i - head.length = k + 1 :=
    ⟨cut.toNat - i - head.length - 1, by omega⟩
  rw [hk, List.set_cons_succ]
  rfl

theorem jammed_cut {i : Nat} {line text : Bytes} (hfound : (scan_loop {} i line).offset_LF ≠ -1)
    (hcut : 0 ≤ (scan_loop {} i line).cut)
    (htext : cstring (line.set ((scan_loop {} i line).cut.toNat - i) 0) = .ok text)
    (hno : sscanf_llx text = none) :
    Jammed i (line.set ((scan_loop {} i line).cut.toNat - i) 0) := by
  rcases scan_loop_cut i line rfl rfl (show (-1 : Int) < i by omega) hfound
    with hnone | ⟨head, c, rest, hline, hat, hblank⟩
  · rw [hnone] at hcut
    exact absurd hcut (by decide)
  · have hset : line.set ((scan_loop {} i line).cut.toNat - i) 0 = head ++ 0 :: rest := by
      rw [hat, Int.toNat_natCast, Nat.add_sub_cancel_left, hline]
      simp
    rw [hset, cstring_cut] at htext
    rw [hset]
    refine ⟨head, rest, rfl, hblank, ?_⟩
    rw [Except.ok.inj htext]
    exact hno

/-! ## One call -/

/-- A chunked encoding that looks for the first header of its raw buffer, with nothing
else to do. -/
structure Idle (enc : httpp_encoding_t) : Prop where
  process : enc.process = .chunked
  decoded : enc.buf_read_decoded = none
  till_eof : enc.bytes_till_eof = -1
  till_header : enc.read_bytes_till_header = 0

/-- The header at the front of the raw buffer is jammed. -/
structure Stuck (enc : httpp_encoding_t) : Prop extends Idle enc where
  raw : ∃ raw, enc.buf_read_raw = some raw ∧ raw.length = enc.buf_read_raw_len ∧
    Jammed enc.buf_read_raw_offset (raw.drop enc.buf_read_raw_offset)

theorem Collected.idle {self self' : httpp_encoding_t} (hc : Collected self self') (h : Idle self) :
    Idle self' := by
  obtain ⟨items, grants, rfl⟩ := hc
  exact ⟨h.process, h.decoded, h.till_eof, h.till_header⟩

theorem window_eq {self : httpp_encoding_t} {raw : Bytes} (hraw : self.buf_read_raw = some raw)
    (hlen : raw.length = self.buf_read_raw_len) :
    window self = raw.drop self.buf_read_raw_offset := by
  rw [window, hraw, Option.getD_some, ← hlen]
  exact List.take_of_length_le (by simp)

theorem header_jams {unset : Bytes} {self : httpp_encoding_t} {raw : Bytes} (h : Idle self)
    (hraw : self.buf_read_raw = some raw) (hlen : raw.length = self.buf_read_raw_len)
    (hle : self.buf_read_raw_offset ≤ self.buf_read_raw_len)
    (hjam : ∀ cut, (scan_loop {} self.buf_read_raw_offset (window self)).offset_LF ≠ -1 →
      store raw (scan_loop {} self.buf_read_raw_offset (window self)).cut 0 = .ok cut →
      Jammed self.buf_read_raw_offset (cut.drop self.buf_read_raw_offset)) :
    Yields (enc_chunked_read_header unset self) fun r =>
      ((scan_loop {} self.buf_read_raw_offset (window self)).offset_LF = -1 ∧ r = (0, self)) ∨
      (r.1 = -1 ∧ Stuck r.2) := by
  have hslice :
    slice raw self.buf_read_raw_offset (self.buf_read_raw_len - self.buf_read_raw_offset) =
      .ok (window self) := by
    rw [window_eq hraw hlen, ← hlen]
    exact slice_rest (hlen ▸ hle)
  unfold enc_chunked_read_header
  rw [hraw]
  refine (yields_ok (P := fun r => r = raw) rfl).bind ?_
  rintro raw rfl
  rw [hslice, ok_bind]
  refine yields_ite (fun hnone => yields_ok (.inl ⟨hnone, rfl⟩)) fun hfound => ?_
  extract_lets rest
  have hrest (parsed : httpp_encoding_t) (hc : Collected self parsed) :
      Yields (rest parsed) fun r =>
        ((scan_loop {} self.buf_read_raw_offset (window self)).offset_LF = -1 ∧ r = (0, self)) ∨
        (r.1 = -1 ∧ Stuck r.2) := by
    have hidle := hc.idle h
    obtain ⟨items, grants, rfl⟩ := hc
    refine yields_bind fun cut hcut => ?_
    have hjammed := hjam cut hfound hcut
    have hcutlen : cut.length = self.buf_read_raw_len := by
      rw [(store_eq_ok hcut).2.2, List.length_set, hlen]
    obtain ⟨text, htext, hno⟩ := hjammed.text
    dsimp only
    rw [htext, ok_bind, hno]
    exact yields_ok (.inr ⟨rfl, ⟨⟨hidle.process, hidle.decoded, hidle.till_eof, hidle.till_header⟩,
      cut, rfl, hcutlen, hjammed⟩⟩)
  refine yields_ite (fun _ => ?_) fun _ => ?_
  · exact hrest self ⟨_, _, rfl⟩
  · exact yields_bind fun parsed hparsed => hrest parsed (extentions_loop_collected hparsed)

/-- The result of a call that delivers nothing. -/
def Nothing (ret : Int) : Prop := ret = 0 ∨ ret = -1

theorem stuck_header {unset : Bytes} {self : httpp_encoding_t} (h : Stuck self) :
    Yields (enc_chunked_read_header unset self) fun r => Nothing r.1 ∧ Stuck r.2 := by
  obtain ⟨raw, hraw, hlen, hjam⟩ := h.raw
  have hagain (cut : Bytes)
    (hfound : (scan_loop {} self.buf_read_raw_offset (window self)).offset_LF ≠ -1)
      (hcut : store raw (scan_loop {} self.buf_read_raw_offset (window self)).cut 0 = .ok cut) :
      Jammed self.buf_read_raw_offset (cut.drop self.buf_read_raw_offset) := by
    rw [window_eq hraw hlen] at hfound hcut
    obtain ⟨-, -, rfl⟩ := store_eq_ok hcut
    rw [List.drop_set]
    split_ifs
    · exact hjam
    · exact hjam.again hfound
  intro r hr
  rcases header_jams h.toIdle hraw hlen (hlen ▸ hjam.lt.le) hagain r hr
    with ⟨-, rfl⟩ | ⟨hret, hstuck⟩
  · exact ⟨.inl rfl, h⟩
  · exact ⟨.inr hret, hstuck⟩

theorem stuck_skip {unset : Bytes} {self : httpp_encoding_t} (h : Stuck self) :
    Yields (enc_chunked_read_skip unset self) fun r => Nothing r.1 ∧ Stuck r.2 := by
  obtain ⟨raw, hraw, hlen, hjam⟩ := h.raw
  have hlt := hjam.lt
  have hhave :
      size_sub self.buf_read_raw_len self.buf_read_raw_offset > self.read_bytes_till_header := by
    rw [size_sub_of_le (by omega), h.till_header]
    omega
  rw [read_skip_past _ hhave, if_pos h.till_eof]
  apply stuck_header
  refine ⟨⟨h.process, h.decoded, h.till_eof, rfl⟩, raw, hraw, hlen, ?_⟩
  rw [h.till_header]
  exact hjam

theorem stuck_chunked {cb : Option (ReadCallback σ)} (hcb : ∀ f ∈ cb, Answers f)
    {self : httpp_encoding_t} (h : Stuck self) (len : Nat) (userdata : σ) :
    Yields (enc_chunked_read self len cb userdata) fun r => Nothing r.1 ∧ Stuck r.2.2.1 := by
  obtain ⟨raw, hraw, hlen, hjam⟩ := h.raw
  unfold enc_chunked_read
  cases cb with
  | none => exact yields_ok ⟨.inr rfl, h⟩
  | some f =>
    have hf : Answers f := hcb f rfl
    refine yields_ite (fun hbody => ?_) fun _ => ?_
    · rw [h.till_header] at hbody
      exact absurd hbody (by decide)
    rw [if_neg (show self.buf_read_raw ≠ none by simp [hraw])]
    generalize (if self.bytes_till_eof ≠ -1 then self.bytes_till_eof.toNat else 1024) = buflen
    refine yields_ite (fun _ => ?_) fun _ => ?_
    · exact yields_ok ⟨.inr rfl, ⟨h.process, h.decoded, h.till_eof, h.till_header⟩, raw,
        hraw, hlen, hjam⟩
    have hslice : slice (self.buf_read_raw.getD []) 0 self.buf_read_raw_len = .ok raw := by
      rw [hraw, Option.getD_some, ← hlen, slice_front le_rfl, List.take_length]
    rw [hslice, ok_bind, hf.receive, ok_bind]
    refine yields_ite (fun hret => ?_) fun hret => ?_
    · have hquiet : Nothing (f userdata buflen).1.1 := by
        rcases hf.step userdata buflen with hq | ⟨hpos, -⟩
        · exact hq
        · exact absurd (show (f userdata buflen).1.1 < 1 from hret) (by omega)
      refine yields_ok ⟨hquiet, ⟨h.process, h.decoded, h.till_eof, h.till_header⟩, raw,
        ?_, hlen, hjam⟩
      have hlt := hjam.lt
      exact if_neg (show self.buf_read_raw_len ≠ 0 by omega)
    · have hroom :=
        hf.count userdata buflen (List.replicate (buflen - (f userdata buflen).1.2.length) 0)
      generalize (f userdata buflen).1.2 ++
        List.replicate (buflen - (f userdata buflen).1.2.length) (0 : Byte) = room
        at hroom ⊢
      have hgrown : Stuck
          { self with
            buf_read_raw := some (raw ++ room.take (f userdata buflen).1.1.toNat)
            buf_read_raw_len := self.buf_read_raw_len + (f userdata buflen).1.1.toNat
            grants := (malloc self.grants .read_raw (self.buf_read_raw_len + buflen)).2 } := by
        refine ⟨⟨h.process, h.decoded, h.till_eof, h.till_header⟩, _, rfl, ?_, ?_⟩
        · rw [List.length_append, hlen, hroom]
        · rw [List.drop_append_of_le_length hjam.lt.le]
          exact hjam.append _
      exact (stuck_skip hgrown).bind fun r hr => yields_ok hr

theorem stuck_read {cb : Option (ReadCallback σ)} (hcb : ∀ f ∈ cb, Answers f)
    {self : httpp_encoding_t} (h : Stuck self) (len : Nat) (userdata : σ) :
    Yields (httpp_encoding_read self len cb userdata) fun r => Nothing r.1 ∧ Stuck r.2.2.1 := by
  have hcopy {self : httpp_encoding_t} (h : Stuck self) {len : Nat} (hlen : len ≠ 0) :
      copy_decoded self len = .ok (-1, [], self) := by
    unfold copy_decoded copy_buffer
    rw [if_neg hlen, h.decoded]
    have hsame : ({ self with buf_read_decoded := none } : httpp_encoding_t) = self := by
      have hdecoded := h.decoded
      cases self
      simp_all
    exact congrArg (fun enc => Except.ok (-1, [], enc)) hsame
  unfold httpp_encoding_read
  refine yields_ite (fun _ => yields_ok ⟨.inl rfl, h⟩) fun hlen => ?_
  rw [hcopy h hlen, ok_bind]
  refine yields_ite (fun _ => yields_ok ⟨.inr rfl, h⟩) fun _ => ?_
  extract_lets done rest_len
  rw [process_read_chunked h.process]
  refine (stuck_chunked hcb h _ userdata).bind ?_
  rintro ⟨ret, data, self, userdata⟩ ⟨hret, h⟩
  refine yields_ite (fun hdone => absurd rfl hdone.2) fun _ => ?_
  refine yields_ite (fun _ => yields_ok ⟨.inr rfl, h⟩) fun hnone => ?_
  obtain rfl : ret = 0 := hret.resolve_right hnone
  refine yields_ite (fun _ => yields_ok ⟨.inl rfl, h⟩) fun hrest => ?_
  rw [hcopy h (by omega), ok_bind]
  exact yields_ok ⟨.inl rfl, h⟩

/-! ## The call that fails -/

/-- A header with an end and, before the cut, no number. A bare LF has no cut in the buffer. -/
def NoNumber (found : httpp_encoding_t) : Prop :=
  (scan_loop {} found.buf_read_raw_offset (window found)).offset_LF ≠ -1 ∧
  ∃ raw text,
    store (found.buf_read_raw.getD [])
      (scan_loop {} found.buf_read_raw_offset (window found)).cut 0 = .ok raw ∧
    cstring (raw.drop found.buf_read_raw_offset) = .ok text ∧ sscanf_llx text = none

theorem not_bare_of_cut {found : httpp_encoding_t} {raw cut : Bytes}
    (hcut : store raw (scan_loop {} found.buf_read_raw_offset (window found)).cut 0 = .ok cut) :
    ¬ BareLF found := by
  rintro ⟨hzero, hhead⟩
  obtain ⟨l, hl⟩ : ∃ l, window found = LF :: l := List.head?_eq_some_iff.mp hhead
  rw [hzero, hl, scan_loop_bare] at hcut
  exact absurd (store_eq_ok hcut).1 (by decide)

theorem NoNumber.not_bare {found : httpp_encoding_t} (h : NoNumber found) : ¬ BareLF found := by
  obtain ⟨-, raw, text, hcut, -⟩ := h
  exact not_bare_of_cut hcut

/-- `sscanf` fails, and the header is jammed. -/
theorem no_number_header {unset : Bytes} {found : httpp_encoding_t} {raw : Bytes} (h : Idle found)
    (hraw : found.buf_read_raw = some raw) (hs : Sound found) (hno : NoNumber found) :
    Yields (enc_chunked_read_header unset found) fun r => r.1 = -1 ∧ Stuck r.2 := by
  obtain ⟨hlen, hle⟩ := hs raw hraw
  obtain ⟨hfound, cut, text, hcut, htext, hnone⟩ := hno
  rw [hraw, Option.getD_some] at hcut
  have hjam (cut' : Bytes)
    (_ : (scan_loop {} found.buf_read_raw_offset (window found)).offset_LF ≠ -1)
      (hcut' : store raw (scan_loop {} found.buf_read_raw_offset (window found)).cut 0 = .ok cut') :
      Jammed found.buf_read_raw_offset (cut'.drop found.buf_read_raw_offset) := by
    rw [hcut] at hcut'
    cases hcut'
    obtain ⟨hpos, -, rfl⟩ := store_eq_ok hcut
    have hwindow := window_eq hraw hlen
    rw [hwindow] at hfound hcut hpos htext ⊢
    obtain ⟨j, -, -, ⟨hzero, hhead⟩ | ⟨-, hcutle, -⟩⟩ := scan_loop_end hfound
    · obtain ⟨l, hl⟩ : ∃ l, raw.drop found.buf_read_raw_offset = LF :: l :=
        List.head?_eq_some_iff.mp hhead
      rw [hzero] at hl
      rw [hzero, hl, scan_loop_bare] at hpos
      exact absurd hpos (by decide)
    · rw [List.drop_set, if_neg (by omega)] at htext ⊢
      exact jammed_cut hfound hpos htext hnone
  intro r hr
  rcases header_jams h hraw hlen hle hjam r hr with ⟨hend, -⟩ | hstuck
  · exact absurd hend hfound
  · exact hstuck

theorem skip_search_idle {self found : httpp_encoding_t} (hprocess : self.process = .chunked)
    (hdecoded : self.buf_read_decoded = none) (hskip : self.read_bytes_till_header ≤ 2)
    (htwo : found.buf_read_raw_offset + 2 ≤ found.buf_read_raw_len)
    (h : skip_search self = some found) :
    Idle found := by
  unfold skip_search at h
  rcases ite_eq_iff.mp h with ⟨-, h⟩ | ⟨hne, h⟩
  · exact absurd h (by simp)
  rcases ite_eq_iff.mp h with ⟨-, h⟩ | ⟨heof, h⟩
  · exact absurd h (by simp)
  cases h
  by_cases hmore : size_sub self.buf_read_raw_len
    self.buf_read_raw_offset > self.read_bytes_till_header
  · simp only [if_pos hmore, and_true] at heof ⊢
    refine ⟨hprocess, hdecoded, ?_, rfl⟩
    show (if self.bytes_till_eof ≠ -1 then 0 else self.bytes_till_eof) = -1
    split_ifs at heof ⊢ with hend
    · exact absurd rfl heof
    · exact not_not.mp hend
  · simp only [if_neg hmore] at htwo
    rw [size_sub_of_le (by omega)] at hne hmore
    omega

theorem chunked_search_idle {cb : ReadCallback σ} {self found : httpp_encoding_t} {userdata : σ}
    (hprocess : self.process = .chunked) (hdecoded : self.buf_read_decoded = none)
    (htwo : found.buf_read_raw_offset + 2 ≤ found.buf_read_raw_len)
    (h : chunked_search self cb userdata = some found) : Idle found := by
  unfold chunked_search at h
  rcases ite_eq_iff.mp h with ⟨-, h⟩ | ⟨hskip, h⟩
  · exact absurd h (by simp)
  rcases ite_eq_iff.mp h with ⟨-, h⟩ | ⟨-, h⟩
  · exact absurd h (by simp)
  by_cases hnull : self.buf_read_raw = none
  · simp only [if_pos hnull] at h
    refine skip_search_idle ?_ ?_ ?_ htwo h
    · exact hprocess
    · exact hdecoded
    · exact not_lt.mp hskip
  · simp only [if_neg hnull] at h
    refine skip_search_idle ?_ ?_ ?_ htwo h
    · exact hprocess
    · exact hdecoded
    · exact not_lt.mp hskip

theorem header_two {found : httpp_encoding_t} {raw : Bytes} (hraw : found.buf_read_raw = some raw)
    (hs : Sound found)
    (hfound : (scan_loop {} found.buf_read_raw_offset (window found)).offset_LF ≠ -1)
    (hbare : ¬ BareLF found) :
    found.buf_read_raw_offset + 2 ≤ found.buf_read_raw_len := by
  have hlen := window_length hraw hs
  obtain ⟨j, -, hlt, hhead | ⟨-, hle, hcut⟩⟩ := scan_loop_end hfound
  · exact absurd hhead hbare
  · omega

/-! ### Decoded bytes -/

def Settled (enc : httpp_encoding_t) : Prop :=
  enc.buf_read_decoded ≠ none → enc.buf_read_decoded_offset ≤ enc.buf_read_decoded_len

theorem copy_decoded_settled (self : httpp_encoding_t) (len : Nat) (h : Settled self) :
    Yields (copy_decoded self len) fun r => Settled r.2.2 ∧ r.2.2.process = self.process ∧
      (len < 2 ^ 63 → r.1 ≠ ssize len → r.2.2.buf_read_decoded = none) := by
  unfold copy_decoded copy_buffer
  by_cases hzero : len = 0
  · subst hzero
    exact yields_ok ⟨h, rfl, fun _ hret => absurd rfl hret⟩
  rw [if_neg hzero]
  cases hblock : self.buf_read_decoded with
  | none => exact yields_ok ⟨fun hsome => absurd rfl hsome, rfl, fun _ _ => rfl⟩
  | some block =>
    have hle : self.buf_read_decoded_offset ≤ self.buf_read_decoded_len := h (by simp [hblock])
    rw [size_sub_of_le hle]
    refine Yields.bind (P := fun r =>
      (r.2.2.1 ≠ none → r.2.2.2.1 ≤ r.2.2.2.2) ∧
      (len < 2 ^ 63 → r.1 ≠ ssize len → r.2.2.1 = none)) ?_ ?_
    · refine yields_bind fun p _ => yields_ite (fun _ => ?_) fun hrest => ?_
      · exact yields_ok ⟨fun hsome => absurd rfl hsome, fun _ _ => rfl⟩
      · refine yields_ok ⟨fun _ => ?_, fun hfits hret => ?_⟩
        · dsimp only
          split_ifs <;> omega
        · split_ifs at hrest hret with hless
          · exact absurd (ssize_of_lt hfits).symm hret
          · exact absurd (Nat.add_sub_cancel' hle) hrest
    · rintro ⟨ret, data, src, boffset, blen⟩ ⟨hsettled, hnone⟩
      exact yields_ok ⟨hsettled, rfl, hnone⟩

theorem body_settled {self : httpp_encoding_t} (hs : Sound self) (h : Settled self)
    (bodylen : Nat) :
    Yields (enc_chunked_read_body self bodylen) fun r => Settled r.2 := by
  unfold enc_chunked_read_body
  refine yields_ite (fun _ => yields_ok h) fun _ => ?_
  refine yields_ite (fun _ => yields_ok fun hsome => ?_) fun _ => ?_
  · obtain ⟨raw, hraw⟩ := Option.ne_none_iff_exists'.mp hsome
    exact (hs raw hraw).2
  refine yields_ite (fun _ => yields_ok fun hsome => absurd rfl hsome) fun _ => ?_
  refine yields_bind fun raw _ => yields_bind fun body _ => ?_
  refine yields_ite (fun _ => yields_ok fun _ => Nat.zero_le _) fun _ => ?_
  refine yields_ite (fun _ => yields_ok fun _ => Nat.zero_le _) fun _ => ?_
  exact yields_ok fun _ => Nat.zero_le _

theorem header_settled {unset : Bytes} {self : httpp_encoding_t} (hs : Sound self)
    (h : Settled self) :
    Yields (enc_chunked_read_header unset self) fun r => Settled r.2 := by
  refine header_rule hs h ?_ ?_
  · intro cut hcut
    obtain ⟨items, grants, raw, -, -, rfl⟩ := hcut
    exact h
  · intro cut offset bodylen hcut hle
    have hmoved := hcut.sound_moved hle
    obtain ⟨items, grants, raw, -, -, rfl⟩ := hcut
    exact body_settled hmoved h bodylen

theorem SameDecoded.settled {self self' : httpp_encoding_t} (hsame : SameDecoded self self')
    (h : Settled self) :
    Settled self' := by
  obtain ⟨hblock, hoffset, hlen⟩ := hsame
  rw [Settled, hblock, hoffset, hlen]
  exact h

/-- What the calls before the failing one keep. -/
structure Reading (enc : httpp_encoding_t) : Prop where
  sound : Sound enc
  settled : Settled enc

theorem process_read_reading {cb : Option (ReadCallback σ)} (hcb : ∀ f ∈ cb, Answers f)
    (self : httpp_encoding_t) (len : Nat) (userdata : σ) (h : Reading self) :
    Yields (process_read self len cb userdata) fun r => Reading r.2.2.1 := by
  intro r hr
  refine ⟨process_read_sound hcb self len userdata h.sound r hr, ?_⟩
  suffices hsettled : Yields (process_read self len cb userdata) fun r =>
    Settled r.2.2.1 from hsettled r hr
  unfold process_read
  cases cb with
  | none => cases self.process <;> exact yields_ok h.settled
  | some f =>
    split
    · unfold enc_identity_read
      exact yields_bind fun _ _ => yields_ok h.settled
    · rcases chunked_search_spec (hcb f rfl) h.sound len userdata with
        ⟨r, -, hrun, -, hsame⟩ | ⟨raw, found, user, unset, -, -, hs, hsame, hheader⟩
      · rw [hrun]
        exact yields_ok (hsame.settled h.settled)
      · rw [hheader]
        exact (header_settled hs (hsame.settled h.settled)).bind fun r hr => yields_ok hr

theorem read_reading {cb : Option (ReadCallback σ)} (hcb : ∀ f ∈ cb, Answers f)
    {self : httpp_encoding_t} (h : Reading self) (len : Nat) (userdata : σ) :
    Yields (httpp_encoding_read self len cb userdata) fun r => Reading r.2.2.1 :=
  read_keeps
    (fun self len h r hr =>
      ⟨copy_decoded_sound h.sound hr, (copy_decoded_settled self len h.settled r hr).1⟩)
    (fun self len h => process_read_reading hcb self len userdata h) h len

/-- A call that finds no number in a header leaves it jammed. -/
theorem malformed_read {f : ReadCallback σ} (hf : Answers f) {self found : httpp_encoding_t}
    (h : Reading self) {len : Nat} (hlen : len < 2 ^ 63) {userdata : σ}
    (hsearch : read_search self len f userdata = some found)
    (hno : NoNumber found) :
    Yields (httpp_encoding_read self len (some f) userdata) fun r => Stuck r.2.2.1 := by
  obtain ⟨n, copied, rest, raw, user, unset, hzero, hcopy, hless, hprocess, hfound, hraw, hs,
      -, hheader⟩ :=
    read_search_header hf h.sound hsearch
  obtain ⟨-, -, hnone⟩ := copy_decoded_settled self len h.settled _ hcopy
  have hidle :=
    chunked_search_idle hprocess (hnone hlen hless) (header_two hraw hs hno.1 hno.not_bare) hfound
  have hhandler :
    Yields (process_read rest (if n > 0 then size_sub len n.toNat else len) (some f) userdata)
    fun r =>
      r.1 = -1 ∧ Stuck r.2.2.1 := by
    rw [process_read_chunked hprocess, hheader]
    exact (no_number_header hidle hraw hs hno).bind fun r hr => yields_ok hr
  rintro ⟨ret', data', self', user'⟩ hread
  obtain ⟨ret, data, enc, user'', hrun, hcase⟩ :=
    read_handled hzero hcopy hless (some f) userdata _ hread
  obtain ⟨hret, hstuck⟩ := hhandler _ hrun
  rcases hcase with ⟨-, hr⟩ | ⟨hother, -⟩
  · cases hr
    exact hstuck
  · exact absurd hret hother

/-! ## Runs -/

/-- A call of `httpp_encoding_read`: the length of the buffer, which is no longer than an object can
be, and the backend, which may be NULL. -/
structure ReadCall (σ : Type) where
  len : Nat
  fits : len < 2 ^ 63
  cb : Option (ReadCallback σ)

def ReadCall.Answers (c : ReadCall σ) : Prop := ∀ f ∈ c.cb, Encoding.Answers f

def ReadCall.read (x : httpp_encoding_t × σ) (c : ReadCall σ) : C (httpp_encoding_t × σ) := do
  let (_, _, enc, userdata) ← httpp_encoding_read x.1 c.len c.cb x.2
  return (enc, userdata)

/-- In this call `sscanf` finds no number in a header. -/
def ReadCall.Malformed (x : httpp_encoding_t × σ) (c : ReadCall σ) : Prop :=
  ∃ f ∈ c.cb, ∃ found, read_search x.1 c.len f x.2 = some found ∧ NoNumber found

theorem Fresh.reading {grants : Grants} {enc : httpp_encoding_t} (h : Fresh grants enc) :
    Reading enc := by
  rw [h.eq]
  exact ⟨sound_null rfl, fun hsome => absurd rfl hsome⟩

theorem call_reading {c : ReadCall σ} (hc : c.Answers) (x : httpp_encoding_t × σ)
    (h : Reading x.1) :
    Yields (ReadCall.read x c) fun y => Reading y.1 :=
  (read_reading hc h c.len x.2).bind fun _ hr => yields_ok hr

theorem call_stuck {c : ReadCall σ} (hc : c.Answers) (x : httpp_encoding_t × σ) (h : Stuck x.1) :
    Yields (ReadCall.read x c) fun y => Stuck y.1 :=
  (stuck_read hc h c.len x.2).bind fun _ hr => yields_ok hr.2

theorem Fresh.calls_reading {grants : Grants} {enc : httpp_encoding_t}
    (hnew : Fresh grants enc) {s : σ} {calls : List (ReadCall σ)}
    (hcalls : ∀ c ∈ calls, c.Answers) :
    Yields (calls.foldlM ReadCall.read (enc, s)) fun x => Reading x.1 :=
  run_yields (fun x => Reading x.1) (fun c hc x h => call_reading (hcalls c hc) x h) hnew.reading

theorem calls_stuck {calls : List (ReadCall σ)} (hcalls : ∀ c ∈ calls, c.Answers)
    {x : httpp_encoding_t × σ} (h : Stuck x.1) :
    Yields (calls.foldlM ReadCall.read x) fun y => Stuck y.1 :=
  run_yields (fun x => Stuck x.1) (fun c hc x h => call_stuck (hcalls c hc) x h) h

theorem call_malformed {c : ReadCall σ} (hc : c.Answers) {x : httpp_encoding_t × σ}
    (h : Reading x.1) (hbad : c.Malformed x) : Yields (ReadCall.read x c) fun y => Stuck y.1 := by
  obtain ⟨f, hf, found, hsearch, hno⟩ := hbad
  unfold ReadCall.read
  rw [Option.mem_def.mp hf]
  exact (malformed_read (hc f hf) h c.fits hsearch hno).bind fun _ hr => yields_ok hr

theorem Stuck.eof {enc : httpp_encoding_t} (h : Stuck enc) (s : σ) :
    httpp_encoding_eof enc none s ≠ 1 := by
  unfold httpp_encoding_eof
  rw [h.till_eof]
  split_ifs <;> simp_all

/-- **Malformed headers.** Behind a call that found no number in a header, no call delivers
anything, and the end of the stream is never announced. -/
theorem malformed_permanent {grants : Grants} {enc : httpp_encoding_t}
    (hnew : Fresh grants enc) {s : σ} {before after : List (ReadCall σ)} {c : ReadCall σ}
    (hcb : ∀ c' ∈ before ++ c :: after, c'.Answers) {x y z : httpp_encoding_t × σ}
    (hbefore : before.foldlM ReadCall.read (enc, s) = .ok x) (hbad : c.Malformed x)
    (hcall : ReadCall.read x c = .ok y) (hafter : after.foldlM ReadCall.read y = .ok z) :
    (∀ c' : ReadCall σ, c'.Answers →
      ∀ ret data enc' s', httpp_encoding_read z.1 c'.len c'.cb z.2 = .ok (ret, data, enc', s') →
      ret = 0 ∨ ret = -1) ∧
    httpp_encoding_eof z.1 none z.2 ≠ 1 := by
  have hx : Reading x.1 := hnew.calls_reading (fun c' hc' => hcb c' (by simp [hc'])) x hbefore
  have hy : Stuck y.1 := call_malformed (hcb c (by simp)) hx hbad y hcall
  have hz : Stuck z.1 := calls_stuck (fun c' hc' => hcb c' (by simp [hc'])) hy z hafter
  refine ⟨fun c' hc' ret data enc' s' hread => ?_, hz.eof z.2⟩
  exact (stuck_read hc' hz c'.len z.2 _ hread).1

/-- A call with room for 16 bytes. -/
def recv16 : ReadCall Network := { len := 16, fits := sixteen.fits, cb := some Network.recv }

theorem recv16_answers : recv16.Answers := by
  rintro f ⟨⟩
  exact Network.recv_fragments.feeds.answers

/-- A chunk without a length but with an extension, and a good one behind it. -/
def no_length : Network := { rest := ascii "zz;a=bb\r\n5\r\nhello\r\n", sizes := [9] }

theorem malformed_permanent_no_length :
    ∃ y z, ReadCall.read (chunked_encoding fun _ _ _ => true, no_length) recv16 = .ok y ∧
      ReadCall.read y recv16 = .ok z ∧
      (∀ ret data enc' s', httpp_encoding_read z.1 16 (some Network.recv) z.2 =
      .ok (ret, data, enc', s') →
        ret = 0 ∨ ret = -1) ∧
      httpp_encoding_eof z.1 none z.2 ≠ 1 := by
  have hcb : ∀ c ∈ [] ++ recv16 :: [recv16], c.Answers := by simp [recv16_answers]
  have hsearch :
    ∃ found, read_search (chunked_encoding fun _ _ _ => true) 16 Network.recv no_length =
    some found ∧
      NoNumber found := by
    refine ⟨_, rfl, by decide, ascii "zz" ++ 0 :: ascii "a=bb\r\n", ascii "zz", ?_, ?_, by decide⟩
    · rfl
    · rfl
  have hbad : recv16.Malformed (chunked_encoding fun _ _ _ => true, no_length) :=
    ⟨Network.recv, rfl, hsearch⟩
  obtain ⟨w, hw⟩ :
      ∃ w, [recv16, recv16].foldlM ReadCall.read
        (chunked_encoding fun _ _ _ => true, no_length) = .ok w :=
    succeeds_of_toBool (by decide +kernel)
  rw [List.foldlM_cons] at hw
  obtain ⟨y, hy, hw⟩ := bind_eq_ok.mp hw
  rw [List.foldlM_cons] at hw
  obtain ⟨z, hz, -⟩ := bind_eq_ok.mp hw
  have hafter : [recv16].foldlM ReadCall.read y = .ok z := by
    rw [List.foldlM_cons, hz]
    rfl
  obtain ⟨hnothing, heof⟩ := malformed_permanent (fresh_chunked rfl) hcb rfl hbad hy hafter
  exact ⟨y, z, hy, hz, hnothing recv16 recv16_answers, heof⟩

end Encoding
