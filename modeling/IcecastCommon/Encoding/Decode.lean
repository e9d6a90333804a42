import IcecastCommon.Encoding.Phase

/-!
# One read

What a call of `httpp_encoding_read` delivers, and how far it takes the decoder.
-/

namespace Encoding

open Lib

variable {σ : Type} {cb : ReadCallback σ} {left : σ → Bytes} {ample : Prop} {further : Bytes}

/-- The backend was asked, unless there was no memory for the answer. -/
def Asked (cb : ReadCallback σ) (ample : Prop) (self : httpp_encoding_t) (s s' : σ) : Prop :=
  (s' = s ∧ ¬ ample) ∨ ∃ n, (n = 0 → self.bytes_till_eof = 0) ∧ s' = (cb s n).2

/-- What a call that asked the backend has done to the lines that are left, and to
`bytes_till_eof`. -/
inductive Moved (left : σ → Bytes) (ample : Prop) (further : Bytes) (s s' : σ) (old eof : Int)
    (ls : List Chunk) :
    List Chunk → Prop
  | quiet (same : left s' = left s) (kept : eof = old) : Moved left ample further s s' old eof ls ls
  | fragment {f : Bytes} (some : f ≠ []) (took : left s = f ++ left s')
      (ended : ample → further = [] → left s' = [] →
        (eof = 0 ↔ ls ≠ [] ∧ advance further ls (left s').length = [])) :
      Moved left ample further s s' old eof ls (advance further ls (left s').length)

/-- Where the decoder is, with `d` decoded and not delivered. -/
structure At (ample : Prop) (further : Bytes) (enc : httpp_encoding_t) (rest : Bytes)
    (ls : List Chunk) (owed d : Bytes) : Prop where
  chunked : enc.process = .chunked
  generous : ample → Generous enc.grants
  closing : Closing ls
  phase : Phase ample further enc rest ls owed
  decoded : Holds enc.buf_read_decoded enc.buf_read_decoded_offset enc.buf_read_decoded_len d

theorem closing_advance {ls : List Chunk} (h : Closing ls) (r : Nat) :
    Closing (advance further ls r) := by
  cases ls with
  | nil => trivial
  | cons c tl =>
    by_cases hr : r ≤ (c.body ++ crlf ++ text further tl).length
    · rw [show advance further (c :: tl) r = tl from if_pos hr]
      exact h.2
    · rw [show advance further (c :: tl) r = c :: tl from if_neg hr]
      exact h

theorem Moved.early {s s' : σ} {old eof : Int} {ls : List Chunk} {f pre : Bytes} (some : f ≠ [])
    (took : left s = f ++ left s') (hpre : pre ≠ []) (hleft : left s' = pre ++ text further ls) :
    Moved left ample further s s' old eof ls ls := by
  have hadv : advance further ls (left s').length = ls := by
    apply advance_early
    rw [hleft, List.length_append]
    omega
  have h : Moved left ample further s s' old eof ls (advance further ls (left s').length) :=
    .fragment some took
    fun _ _ hnil => absurd (hleft.symm.trans hnil) (by simp [hpre])
  rwa [hadv] at h

/-- A read has delivered `got` of what is `due`. -/
structure Stepped (cb : ReadCallback σ) (left : σ → Bytes) (ample : Prop) (further : Bytes)
    (old : httpp_encoding_t) (s : σ) (ls : List Chunk) (due got : Bytes)
    (new : httpp_encoding_t) (s' : σ) : Prop where
  asked : Asked cb ample old s s'
  result : ∃ ls' owed d,
    Moved left ample further s s' old.bytes_till_eof new.bytes_till_eof ls ls' ∧
    At ample further new (left s') ls' owed d ∧ got ++ d ++ owed ++ bodies ls' = due ∧
    (left s' = left s ∨ ls' = [] → d = [])

/-! ## The direct path -/

section Direct

variable {self : httpp_encoding_t} {s : σ} {ls : List Chunk} {owed : Bytes} {len : Nat}

/-- Within a body the backend is asked for the rest of it at most, and what it hands over is the
front of that. -/
theorem direct_asks {cb : ReadCallback σ} {left : σ → Bytes} {tail : Bytes} (hfeed : Feeds cb left)
    (hlen : 0 < len) (howed : owed ≠ []) (hskip : self.read_bytes_till_header = owed.length + 2)
    (hcoming : left s = owed ++ tail) :
    ∃ n ret data s', n ≠ 0 ∧ cb s n = ((ret, data), s') ∧ ret ≤ len ∧
      ((ret = -1 ∨ ret = 0) ∧ data.take ret.toNat = [] ∧ left s' = left s ∧
          enc_chunked_read self len (some cb) s = .ok (ret, data, self, s') ∨
        ∃ owed', data ≠ [] ∧ ret = (data.take ret.toNat).length ∧ data.take ret.toNat = data ∧
          owed = data ++ owed' ∧ left s = data ++ left s' ∧ left s' = owed' ++ tail ∧
          enc_chunked_read self len (some cb) s =
            .ok (ret, data, { self with read_bytes_till_header := owed'.length + 2 }, s')) := by
  have hpos : 0 < owed.length := List.length_pos_iff.mpr howed
  -- How much the code asks for.
  obtain ⟨n, hn, hn0, hnlen, hnowed⟩ : ∃ n, (if len > self.read_bytes_till_header - 2
      then self.read_bytes_till_header - 2 else len) = n ∧ 0 < n ∧ n ≤ len ∧ n ≤ owed.length := by
    refine ⟨_, rfl, ?_⟩
    rw [hskip]
    split <;> omega
  have hrun : enc_chunked_read self len (some cb) s =
      if (cb s n).1.1 < 1 then .ok ((cb s n).1.1, (cb s n).1.2, self, (cb s n).2)
      else .ok ((cb s n).1.1, (cb s n).1.2,
        { self with
          read_bytes_till_header := size_sub self.read_bytes_till_header (cb s n).1.1.toNat },
        (cb s n).2) := by
    unfold enc_chunked_read
    simp only [show self.read_bytes_till_header > 2 by omega, if_true, hn, hfeed.receive,
      ok_bind, pure_eq_ok]
  have hle := hfeed.within s n
  refine ⟨n, (cb s n).1.1, (cb s n).1.2, (cb s n).2, hn0.ne', rfl, ?_⟩
  rcases hfeed.step s n with ⟨hret, hsame⟩ | ⟨hsome, hret, htook⟩
  · rw [if_pos (by omega)] at hrun
    refine ⟨by omega, .inl ⟨hret.symm, ?_, hsame, hrun⟩⟩
    rw [show (cb s n).1.1.toNat = 0 by omega, List.take_zero]
  · have hdlen : 0 < (cb s n).1.2.length := List.length_pos_iff.mpr hsome
    rw [if_neg (by omega)] at hrun
    obtain ⟨owed', howed', hrest⟩ :=
      append_split (hcoming.symm.trans htook) (show (cb s n).1.2.length ≤ owed.length by omega)
    have hgot : (cb s n).1.2.take (cb s n).1.1.toNat = (cb s n).1.2 := by
      rw [hret, Int.toNat_natCast, List.take_length]
    have hsum := congrArg List.length howed'
    rw [List.length_append] at hsum
    have hleft : size_sub self.read_bytes_till_header (cb s n).1.1.toNat = owed'.length + 2 := by
      rw [hskip, hret, Int.toNat_natCast, size_sub_of_le (by omega)]
      omega
    refine ⟨by omega, .inr ⟨owed', hsome, ?_, hgot, howed', htook, hrest.symm, ?_⟩⟩
    · rw [hgot]
      exact hret
    · rw [hrun, hleft]

theorem direct_step (hfeed : Feeds cb left) (hlen : 0 < len) (howed : owed ≠ [])
    (h : At ample further self (left s) ls owed []) :
    ∃ ret data self' s', enc_chunked_read self len (some cb) s = .ok (ret, data, self', s') ∧
      (ret = -1 ∨ ret = (data.take ret.toNat).length) ∧ ret ≤ len ∧
      Stepped cb left ample further self s ls (owed ++ bodies ls)
        (data.take ret.toNat) self' s' := by
  obtain ⟨hchunked, hgen, hclosing, hphase, hdecoded⟩ := h
  cases hphase with
  | header => exact absurd rfl howed
  | stray => exact absurd rfl howed
  | eof => exact absurd rfl howed
  | @body _ _ u heof hsmall hskip hraw hcoming hfew hdirect =>
    obtain rfl := hdirect howed
    rw [List.nil_append, List.append_assoc] at hcoming
    obtain ⟨n, ret, data, s', hn, hcb, hle, hcase⟩ := direct_asks hfeed hlen howed hskip hcoming
    have hask : Asked cb ample self s s' := .inr ⟨n, fun h0 => absurd h0 hn, by rw [hcb]⟩
    rcases hcase with ⟨hret, hgot, hsame, hrun⟩ |
      ⟨owed', hsome, hret, hgot, rfl, htook, hrest, hrun⟩
    · refine ⟨_, _, _, _, hrun, ?_, hle, hask, ls, owed, [], .quiet hsame rfl, ?_, ?_, fun _ => rfl⟩
      · rw [hgot]
        exact hret
      · refine ⟨hchunked, hgen, hclosing, ?_, hdecoded⟩
        rw [hsame]
        exact .body heof hsmall hskip hraw (by simpa using hcoming) hfew hdirect
      · rw [hgot]
        rfl
    · rw [List.length_append] at hsmall
      refine ⟨_, _, _, _, hrun, .inr hret, hle, hask, ls, owed', [], ?_, ?_, ?_, fun _ => rfl⟩
      · exact .early hsome htook (by simp [crlf]) (hrest.trans (List.append_assoc _ _ _).symm)
      · exact ⟨hchunked, hgen, hclosing,
          .body heof (by omega) rfl hraw (by simpa using hrest) hfew fun _ => rfl, hdecoded⟩
      · rw [hgot]
        simp

end Direct

/-! ## Filling the raw buffer -/

section Fill

variable {self : httpp_encoding_t} {s : σ} {ls : List Chunk} {len : Nat}

/-- What the code asks for when it has no body to take. -/
def buflen (self : httpp_encoding_t) : Nat :=
  if self.bytes_till_eof ≠ -1 then self.bytes_till_eof.toNat else 1024

/-- The raw buffer as the allocator leaves it. -/
def filling (self : httpp_encoding_t) : httpp_encoding_t :=
  { self with grants := (malloc self.grants .read_raw (self.buf_read_raw_len + buflen self)).2 }

theorem Holds.kept {buf : Option Bytes} {offset len : Nat} {u : Bytes}
    (h : Holds buf offset len u) :
    Holds (if len = 0 then none else some (buf.getD [])) offset len u := by
  refine ⟨h.within, ?_, ?_⟩
  all_goals
    by_cases hlen : len = 0
    · have hnil : buf.getD [] = [] := List.eq_nil_of_length_eq_zero (h.length.trans hlen)
      have := h.left
      rw [hnil] at this
      rw [if_pos hlen]
      simp_all
    · rw [if_neg hlen]
      first | exact h.length | exact h.left

theorem opened {u : Bytes}
    (hraw : Holds self.buf_read_raw self.buf_read_raw_offset self.buf_read_raw_len u) :
    (if self.buf_read_raw = none then { self with buf_read_raw_offset := 0, buf_read_raw_len := 0 }
      else self) =
      self := by
  by_cases hnone : self.buf_read_raw = none
  · rw [if_pos hnone]
    rw [hnone] at hraw
    have hlen : self.buf_read_raw_len = 0 := hraw.length.symm
    have hoffset : self.buf_read_raw_offset = 0 := by
      have := hraw.within
      omega
    cases self
    simp_all
  · rw [if_neg hnone]

theorem fill_run {u : Bytes} (s : σ) (len : Nat) (hfeed : Feeds cb left)
    (hskip : self.read_bytes_till_header ≤ 2)
    (hraw : Holds self.buf_read_raw self.buf_read_raw_offset self.buf_read_raw_len u) :
    enc_chunked_read self len (some cb) s =
      if self.grants .read_raw 0 (self.buf_read_raw_len + buflen self) = true then
        if (cb s (buflen self)).1.1 < 1 then
          .ok ((cb s (buflen self)).1.1, [],
            { filling self with
              buf_read_raw :=
                if self.buf_read_raw_len = 0 then none else some (self.buf_read_raw.getD []) },
            (cb s (buflen self)).2)
        else do
          let (ret, self') ← enc_chunked_read_skip
            (List.replicate (buflen self - (cb s (buflen self)).1.2.length) 0)
            { filling self with
              buf_read_raw := some (self.buf_read_raw.getD [] ++ (cb s (buflen self)).1.2)
              buf_read_raw_len := self.buf_read_raw_len + (cb s (buflen self)).1.1.toNat }
          return (ret, [], self', (cb s (buflen self)).2)
      else .ok (-1, [], filling self, s) := by
  have hslice :
      slice (self.buf_read_raw.getD []) 0 self.buf_read_raw_len =
      .ok (self.buf_read_raw.getD []) := by
    rw [slice_eq (by rw [hraw.length]; omega), List.drop_zero, ← hraw.length, List.take_length]
  unfold enc_chunked_read
  simp only [show ¬ self.read_bytes_till_header > 2 by omega, if_false, opened hraw]
  change (if ¬ (self.grants .read_raw 0 (self.buf_read_raw_len + buflen self)) = true then
    _ else _) = _
  by_cases hgrant : self.grants .read_raw 0 (self.buf_read_raw_len + buflen self) = true
  · rw [if_neg (not_not_intro hgrant), if_pos hgrant]
    change (slice (self.buf_read_raw.getD []) 0 self.buf_read_raw_len >>= fun raw =>
      receive cb s (buflen self) >>= fun r => _) = _
    rw [hslice, ok_bind, hfeed.receive, ok_bind]
    by_cases hret : (cb s (buflen self)).1.1 < 1
    · rw [if_pos hret, if_pos hret]
      rfl
    · rw [if_neg hret, if_neg hret]
      simp only [hfeed.stored hret, List.take_left, List.drop_left]
      rfl
  · rw [if_pos hgrant, if_neg hgrant]
    rfl

theorem fill_search {u : Bytes} (hfeed : Feeds cb left) (hskip : self.read_bytes_till_header ≤ 2)
    (hraw : Holds self.buf_read_raw self.buf_read_raw_offset self.buf_read_raw_len u)
    (hgrant : self.grants .read_raw 0 (self.buf_read_raw_len + buflen self) = true)
    (hret : ¬ (cb s (buflen self)).1.1 < 1) :
    chunked_search self cb s = skip_search
      { filling self with
        buf_read_raw := some (self.buf_read_raw.getD [] ++ (cb s (buflen self)).1.2)
        buf_read_raw_len := self.buf_read_raw_len + (cb s (buflen self)).1.1.toNat } := by
  have htake : (self.buf_read_raw.getD []).take self.buf_read_raw_len = self.buf_read_raw.getD [] :=
    List.take_of_length_le hraw.length.le
  unfold chunked_search
  rw [if_neg (by omega)]
  simp only [opened hraw]
  change (if ¬ self.grants .read_raw 0 (self.buf_read_raw_len + buflen self) = true ∨
    (cb s (buflen self)).1.1 < 1 then none else _) = _
  rw [if_neg (by simp [hgrant, hret])]
  simp only [htake]
  change skip_search { filling self with
    buf_read_raw := some (self.buf_read_raw.getD [] ++
      ((cb s (buflen self)).1.2 ++ List.replicate
        (buflen self - (cb s (buflen self)).1.2.length) 0).take
        (cb s (buflen self)).1.1.toNat)
    buf_read_raw_len := self.buf_read_raw_len + (cb s (buflen self)).1.1.toNat } = _
  rw [hfeed.stored hret, List.take_left]

theorem bodies_of_advance {ls : List Chunk} {r : Nat} (hclosing : Closing ls)
    (h : advance further ls r = []) :
    bodies ls = [] := by
  cases ls with
  | nil => rfl
  | cons c tl =>
    by_cases hr : r ≤ (c.body ++ crlf ++ text further tl).length
    · rw [show advance further (c :: tl) r = tl from if_pos hr] at h
      simp [bodies, h, hclosing.1.mpr h]
    · rw [show advance further (c :: tl) r = c :: tl from if_neg hr] at h
      exact absurd h (by simp)

theorem Outcome.stepped {self filled self' : httpp_encoding_t} {s s' : σ} {ls : List Chunk}
    {f : Bytes} {ret : Int} (h : Outcome ample further (left s') filled ls (bodies ls) ret self')
    (hclosing : Closing ls) (hchunked : filled.process = .chunked)
    (hgen : ample → Generous filled.grants) (hask : Asked cb ample self s s') (hsome : f ≠ [])
    (htook : left s = f ++ left s') :
    Stepped cb left ample further self s ls (bodies ls) [] self' s' := by
  obtain ⟨owed, d, hphase, hd, hdue⟩ := h.phase
  refine ⟨hask, _, owed, d, .fragment hsome htook h.ended, ?_, by simpa using hdue, ?_⟩
  · exact ⟨h.process.trans hchunked, fun ha => (hgen ha).later h.later,
      closing_advance hclosing _, hphase, hd⟩
  · rintro (hsame | hlast)
    · rw [hsame] at htook
      exact absurd (List.self_eq_append_left.mp htook) hsome
    · rw [hlast, bodies_of_advance hclosing hlast, bodies, List.flatMap_nil,
        List.append_nil] at hdue
      exact (List.append_eq_nil_iff.mp hdue).1

/-- The buffer with the fragment `d`. -/
def with_fragment (self : httpp_encoding_t) (d : Bytes) : httpp_encoding_t :=
  { filling self with
    buf_read_raw := some (self.buf_read_raw.getD [] ++ d)
    buf_read_raw_len := self.buf_read_raw_len + d.length }

theorem Phase.skips {d rest : Bytes} (hphase : Phase ample further self (d ++ rest) ls [])
    (hclosing : Closing ls) (hdec : Drained self) (hd : d ≠ []) (hroom : buflen self ≠ 0)
    (hsearch : ∀ found, skip_search (with_fragment self d) = some found → Affords found)
    (hgen : ample → Generous (filling self).grants) (unset : Bytes) :
    ∃ ret self', enc_chunked_read_skip unset (with_fragment self d) = .ok (ret, self') ∧
      Outcome ample further rest (with_fragment self d) ls (bodies ls) ret self' := by
  have hfilled : ∀ {u}, Holds self.buf_read_raw self.buf_read_raw_offset self.buf_read_raw_len u →
      Holds (some (self.buf_read_raw.getD [] ++ d)) (with_fragment self d).buf_read_raw_offset
        (with_fragment self d).buf_read_raw_len (u ++ d) := fun hu => hu.append d
  have hne : ∀ u, u ++ d ≠ [] := by simp [hd]
  have hcome : ∀ {u v : Bytes}, u ++ (d ++ rest) = v → u ++ d ++ rest = v := by
    rintro u v rfl
    rw [List.append_assoc]
  have hdrained : Drained (with_fragment self d) := hdec
  cases hphase with
  | header more eof skip raw coming =>
    exact skip_header hclosing more hdrained rfl (hfilled raw) (hne _) eof skip hsearch hgen
      (hcome coming)
  | body eof small skip raw coming few direct =>
    exact skip_body hclosing hdrained rfl (hfilled raw) (hne _) eof skip hsearch hgen (hcome coming)
  | stray eof skip raw none_left =>
    refine skip_stray hdrained rfl (hfilled raw) (hne _) eof skip fun ha hnil => hd ?_
    exact (List.append_eq_nil_iff.mp (none_left ha hnil).2).1
  | eof eof skip raw none_left => exact absurd (by simp [buflen, eof]) hroom

theorem fill_step (len : Nat) (hfeed : Feeds cb left) (h : At ample further self (left s) ls [] [])
    (hdec : Drained self) (hroom : ∀ found, chunked_search self cb s = some found → Affords found) :
    ∃ ret self' s', enc_chunked_read self len (some cb) s = .ok (ret, [], self', s') ∧
      (ret = -1 ∨ ret = 0) ∧
      Stepped cb left ample further self s ls (bodies ls) [] self' s' := by
  obtain ⟨hchunked, hgen, hclosing, hphase, hdecoded⟩ := h
  obtain ⟨u, hraw, hskip, hasked⟩ : ∃ u,
    Holds self.buf_read_raw self.buf_read_raw_offset self.buf_read_raw_len u ∧
      self.read_bytes_till_header ≤ 2 ∧ (buflen self = 0 → self.bytes_till_eof = 0) := by
    cases hphase with
    | header more eof skip raw coming => exact ⟨_, raw, by omega, by simp [buflen, eof]⟩
    | body eof small skip raw coming few direct =>
      refine ⟨_, raw, by simpa using skip.le, ?_⟩
      unfold buflen
      rw [eof]
      split <;> simp
    | stray eof skip raw none_left => exact ⟨_, raw, by omega, by simp [buflen, eof]⟩
    | eof eof skip raw none_left => exact ⟨_, raw, by omega, fun _ => eof⟩
  have hlater : Later self.grants (filling self).grants :=
    malloc_later self.grants .read_raw (self.buf_read_raw_len + buflen self)
  have hgen' : ample → Generous (filling self).grants := fun ha => (hgen ha).later hlater
  have hrun := fill_run s len hfeed hskip hraw
  by_cases hgrant : self.grants .read_raw 0 (self.buf_read_raw_len + buflen self) = true
  · rw [if_pos hgrant] at hrun
    have hask : Asked cb ample self s (cb s (buflen self)).2 := .inr ⟨_, hasked, rfl⟩
    rcases hfeed.step s (buflen self) with ⟨hret, hsame⟩ | ⟨hsome, hret, htook⟩
    · rw [if_pos (by omega)] at hrun
      refine ⟨_, _, _, hrun, hret.symm, hask, ls, [], [], .quiet hsame rfl, ?_, rfl, fun _ => rfl⟩
      refine ⟨hchunked, hgen', hclosing, ?_, hdecoded⟩
      rw [hsame]
      exact hphase.congr Holds.kept rfl rfl
    · have hdlen : 0 < (cb s (buflen self)).1.2.length := List.length_pos_iff.mpr hsome
      have hle := hfeed.within s (buflen self)
      have hnat : (cb s (buflen self)).1.1.toNat = (cb s (buflen self)).1.2.length := by omega
      rw [if_neg (by omega), hnat] at hrun
      rw [fill_search hfeed hskip hraw hgrant (by omega), hnat] at hroom
      rw [htook] at hphase
      obtain ⟨ret, self', hskip, hout⟩ := hphase.skips hclosing hdec hsome (by omega) hroom hgen'
        (List.replicate (buflen self - (cb s (buflen self)).1.2.length) 0)
      rw [with_fragment] at hskip
      rw [hskip] at hrun
      exact ⟨ret, self', _, hrun, hout.result.symm,
        hout.stepped hclosing hchunked hgen' hask hsome htook⟩
  · rw [if_neg hgrant] at hrun
    refine ⟨_, _, _, hrun, .inl rfl, .inl ⟨rfl, fun ha => hgrant (hgen ha _ _ _)⟩, ls, [], [],
      .quiet rfl rfl, ?_, rfl,
      fun _ => rfl⟩
    exact ⟨hchunked, hgen', hclosing, hphase.congr (fun hu => hu) rfl rfl, hdecoded⟩

end Fill

/-! ## A call of `httpp_encoding_read` -/

section Read

variable {self : httpp_encoding_t} {s : σ} {ls : List Chunk} {owed d : Bytes} {len : Nat}

theorem Holds.drained
    (h : Holds self.buf_read_decoded self.buf_read_decoded_offset self.buf_read_decoded_len d)
    (hnone : self.buf_read_decoded = none) : Drained self := by
  have hlen := h.length
  have hwithin := h.within
  rw [hnone] at hlen
  have hzero : self.buf_read_decoded_len = 0 := hlen.symm
  exact ⟨hnone, by omega, hzero⟩

theorem chunked_step (hfeed : Feeds cb left) (hlen : 0 < len)
    (h : At ample further self (left s) ls owed []) (hdec : Drained self)
    (hroom : ∀ found, chunked_search self cb s = some found → Affords found) :
    ∃ ret data self' s', enc_chunked_read self len (some cb) s = .ok (ret, data, self', s') ∧
      (ret = -1 ∨ ret = (data.take ret.toNat).length) ∧ ret ≤ len ∧
      Stepped cb left ample further self s ls (owed ++ bodies ls)
        (data.take ret.toNat) self' s' := by
  by_cases howed : owed = []
  · subst howed
    obtain ⟨ret, self', s', hrun, hret, hstep⟩ := fill_step len hfeed h hdec hroom
    exact ⟨ret, [], self', s', hrun, by simpa using hret, by omega, by simpa using hstep⟩
  · exact direct_step hfeed hlen howed h

theorem copy_decoded_spec (hlen : 0 < len) (h : At ample further self (left s) ls owed d) :
    ∃ ret self', copy_decoded self len = .ok (ret, d.take len, self') ∧
      At ample further self' (left s) ls owed (d.drop len) ∧
      self'.bytes_till_eof = self.bytes_till_eof ∧
      (if ret > 0 then ret else 0) = (d.take len).length ∧
      (ret = -1 ∧ d = [] ∨ ret = (d.take len).length) ∧
      (d.length < len → Drained self') := by
  obtain ⟨ret, src, boffset, blen, hcopy, hholds, hpos, hret, hnone⟩ :=
    copy_buffer_spec hlen h.decoded
  refine ⟨ret,
    { self with
    buf_read_decoded := src, buf_read_decoded_offset := boffset, buf_read_decoded_len := blen },
    ?_, ⟨h.chunked, h.generous, h.closing, h.phase.congr (fun hu => hu) rfl rfl, hholds⟩,
    rfl, hpos, hret,
    fun hlt => hholds.drained (hnone hlt)⟩
  unfold copy_decoded
  rw [hcopy]
  rfl

theorem Stepped.copied {old : httpp_encoding_t} {s' : σ} {due got : Bytes}
    (h : Stepped cb left ample further old s ls due got self s') (hlen : 0 < len) :
    ∃ ret more self', copy_decoded self len = .ok (ret, more, self') ∧
      (if ret > 0 then ret else 0) = more.length ∧
      Stepped cb left ample further old s ls due (got ++ more) self' s' := by
  obtain ⟨hasked, ls', owed, d, hmoved, hat, hdue, hquiet⟩ := h
  obtain ⟨ret, self', hcopy, hat', heof, hpos, -⟩ := copy_decoded_spec hlen hat
  refine ⟨ret, d.take len, self', hcopy, hpos, hasked, ls', owed, d.drop len, by rwa [heof], hat',
    ?_, fun hsame => ?_⟩
  · rw [List.append_assoc got, List.take_append_drop]
    exact hdue
  · rw [hquiet hsame, List.drop_nil]

/-! Where `httpp_encoding_read` returns. -/

section Returns

variable {self1 self2 : httpp_encoding_t} {s' : σ} {copied data : Bytes} {n ret : Int}

variable (hlen : len ≠ 0) (hbig : len < 2 ^ 63)
  (hcopy : copy_decoded self len = .ok (n, copied, self1))

include hlen hcopy

theorem read_enough (hall : n = ssize len) :
    httpp_encoding_read self len (some cb) s = .ok (n, copied, self1, s) := by
  unfold httpp_encoding_read
  rw [if_neg hlen, hcopy, ok_bind]
  exact if_pos hall

variable (hless : n ≠ ssize len) (hn : (if n > 0 then n else 0) = copied.length)
  (hleft : (if n > 0 then size_sub len n.toNat else len) = len - copied.length)

include hless hn hleft

theorem read_fails
    (hrun : process_read self1 (len - copied.length) (some cb) s = .ok (-1, data, self2, s')) :
    ∃ ret, httpp_encoding_read self len (some cb) s = .ok (ret, copied, self2, s') ∧
      copied.take ret.toNat = copied := by
  unfold httpp_encoding_read
  simp only [if_neg hlen, hcopy, ok_bind, hless, if_false, hleft, hrun, hn, true_and,
    if_true, pure_eq_ok]
  by_cases hnone : (copied.length : Int) = 0
  · rw [if_neg (not_not.mpr hnone)]
    refine ⟨-1, rfl, ?_⟩
    rw [List.eq_nil_of_length_eq_zero (by omega : copied.length = 0), List.take_nil]
  · rw [if_pos hnone]
    refine ⟨copied.length, rfl, ?_⟩
    rw [Int.toNat_natCast, List.take_length]

include hbig

/-- The handler returned, and the rest of the buffer is filled with decoded bytes. -/
theorem read_goes_on (hfits : copied.length ≤ len) {got : Bytes} (hdata : data.take ret.toNat = got)
    (hret : ret = got.length) (hle : got.length ≤ len - copied.length)
    (hrun : process_read self1 (len - copied.length) (some cb) s = .ok (ret, data, self2, s')) :
    httpp_encoding_read self len (some cb) s =
      if len - copied.length - got.length = 0 then
      .ok ((copied ++ got).length, copied ++ got, self2, s')
      else do
        let (m, more, self3) ← copy_decoded self2 (len - copied.length - got.length)
        if m > 0 then return ((copied ++ got).length + m, copied ++ got ++ more, self3, s')
        return ((copied ++ got).length, copied ++ got, self3, s') := by
  have hbuf : (copied ++ data).take ((copied.length : Int) + ret).toNat = copied ++ got := by
    rw [← hdata, show ((copied.length : Int) + ret).toNat = copied.length + ret.toNat by omega,
      List.take_length_add_append]
  have hrest :
      (((len - copied.length : Nat) : Int) - ret) % 2 ^ 64 =
      (len - copied.length - got.length : Nat) := by
    rw [hret, Int.emod_eq_of_lt (by omega) (by omega)]
    omega
  have hsum : (copied.length : Int) + got.length = ((copied ++ got).length : Nat) := by
    rw [List.length_append]
    omega
  have hnot : ¬ (((copied ++ got).length : Nat) : Int) < 0 := by omega
  unfold httpp_encoding_read
  simp only [if_neg hlen, hcopy, ok_bind, hless, if_false, hleft, hrun, hn, hbuf, hrest, pure_eq_ok]
  rw [if_neg (by omega), if_neg (by omega), hret, hsum]
  by_cases hfull : len - copied.length - got.length = 0
  · rw [if_pos (by exact_mod_cast hfull), if_pos hfull]
  · rw [if_neg (by exact_mod_cast hfull), if_neg hfull, Int.toNat_natCast]
    simp only [hnot, and_false, if_false]

end Returns

theorem read_decoded (hlen : 0 < len) (hbig : len < 2 ^ 63)
    (h : At ample further self (left s) ls owed d) (hle : len ≤ d.length) :
    ∃ self', httpp_encoding_read self len (some cb) s = .ok (len, d.take len, self', s) ∧
      self'.bytes_till_eof = self.bytes_till_eof ∧
      At ample further self' (left s) ls owed (d.drop len) := by
  obtain ⟨ret, self1, hcopy, hat1, heof1, -, hret, -⟩ := copy_decoded_spec hlen h
  have htake : (d.take len).length = len := by
    rw [List.length_take]
    omega
  have hret' : ret = ssize len := by
    rw [ssize_of_lt hbig]
    rcases hret with ⟨-, rfl⟩ | hret
    · simp at hle
      omega
    · rw [hret, htake]
  refine ⟨self1, ?_, heof1, hat1⟩
  rw [read_enough hlen.ne' hcopy hret', hret', ssize_of_lt hbig]

theorem read_fills {self1 self2 : httpp_encoding_t} {s' : σ} {got data : Bytes} {n ret : Int}
    {due : Bytes} (hlen : 0 < len) (hbig : len < 2 ^ 63)
    (hcopy : copy_decoded self len = .ok (n, d, self1)) (hless : n ≠ ssize len)
    (hn : (if n > 0 then n else 0) = d.length)
    (hleft : (if n > 0 then size_sub len n.toNat else len) = len - d.length)
    (hfits : d.length ≤ len) (hdata : data.take ret.toNat = got) (hret : ret = got.length)
    (hle : got.length ≤ len - d.length)
    (hrun : process_read self1 (len - d.length) (some cb) s = .ok (ret, data, self2, s'))
    (h : Stepped cb left ample further self s ls due (d ++ got) self2 s') :
    ∃ ret buf self', httpp_encoding_read self len (some cb) s = .ok (ret, buf, self', s') ∧
      Stepped cb left ample further self s ls due (buf.take ret.toNat) self' s' := by
  have hread := read_goes_on hlen.ne' hbig hcopy hless hn hleft hfits hdata hret hle hrun
  by_cases hfull : len - d.length - got.length = 0
  · rw [if_pos hfull] at hread
    refine ⟨_, _, _, hread, ?_⟩
    rwa [Int.toNat_natCast, List.take_length]
  · rw [if_neg hfull] at hread
    obtain ⟨m, more, self3, hcopy3, hpos3, hcopied⟩ :=
      h.copied (by omega : 0 < len - d.length - got.length)
    rw [hcopy3, ok_bind] at hread
    by_cases hm : m > 0
    · simp only [hm, if_true, pure_eq_ok] at hread
      rw [if_pos hm] at hpos3
      refine ⟨_, _, _, hread, ?_⟩
      have hsum : (d ++ got ++ more).length = (d ++ got).length + more.length := List.length_append
      rwa [show (((d ++ got).length : Int) + m).toNat = (d ++ got ++ more).length by omega,
        List.take_length]
    · simp only [if_false, hm, pure_eq_ok] at hread
      rw [if_neg hm] at hpos3
      refine ⟨_, _, _, hread, ?_⟩
      rw [List.eq_nil_of_length_eq_zero (by omega : more.length = 0), List.append_nil] at hcopied
      rwa [Int.toNat_natCast, List.take_length]

theorem read_asked (hfeed : Feeds cb left) (hlen : 0 < len) (hbig : len < 2 ^ 63)
    (h : At ample further self (left s) ls owed d)
    (hroom : ∀ found, read_search self len cb s = some found → Affords found)
    (hless : d.length < len) :
    ∃ ret buf self' s', httpp_encoding_read self len (some cb) s = .ok (ret, buf, self', s') ∧
      Stepped cb left ample further self s ls (d ++ owed ++ bodies ls)
        (buf.take ret.toNat) self' s' := by
  obtain ⟨n, self1, hcopy, hat1, heof1, hn, hret, hdrained⟩ := copy_decoded_spec hlen h
  rw [List.take_of_length_le hless.le] at hcopy hn hret
  rw [List.drop_eq_nil_of_le hless.le] at hat1
  have hne : n ≠ ssize len := by
    rw [ssize_of_lt hbig]
    omega
  have hleft : (if n > 0 then size_sub len n.toNat else len) = len - d.length := by
    split_ifs at hn ⊢
    · rw [size_sub_of_le (by omega)]
      omega
    · omega
  have hsearch : read_search self len cb s = chunked_search self1 cb s := by
    unfold read_search
    rw [if_neg hlen.ne', hcopy]
    exact if_neg (not_or.mpr ⟨hne, by simp [hat1.chunked]⟩)
  rw [hsearch] at hroom
  obtain ⟨ret, data, self2, s', hread, hret', hle, hstep⟩ :=
    chunked_step hfeed (by omega : 0 < len - d.length) hat1 (hdrained hless) hroom
  have hhandler : process_read self1 (len - d.length) (some cb) s = .ok (ret, data, self2, s') :=
    (process_read_chunked hat1.chunked _ _ _).trans hread
  have hasked : Asked cb ample self s s' := by
    have := hstep.asked
    unfold Asked at this ⊢
    rwa [heof1] at this
  obtain ⟨ls', owed', d', hmoved, hat2, hdue, hquiet⟩ := hstep.result
  rw [heof1] at hmoved
  obtain ⟨got, hgot⟩ : ∃ got, data.take ret.toNat = got := ⟨_, rfl⟩
  rw [hgot] at hret' hdue
  have hstepped :
      Stepped cb left ample further self s ls (d ++ owed ++ bodies ls) (d ++ got) self2 s' := by
    refine ⟨hasked, ls', owed', d', hmoved, hat2, ?_, hquiet⟩
    rw [List.append_assoc d owed, ← hdue]
    simp
  rcases hret' with rfl | hret'
  · obtain ⟨ret', hrun, htaken⟩ := read_fails hlen.ne' hcopy hne hn hleft hhandler
    have hnone : got = [] := hgot.symm
    rw [hnone, List.append_nil] at hstepped
    exact ⟨ret', d, self2, s', hrun, by rwa [htaken]⟩
  · obtain ⟨ret', buf, self', hrun, hbehind⟩ :=
      read_fills hlen hbig hcopy hne hn hleft hless.le hgot hret' (by omega) hhandler hstepped
    exact ⟨ret', buf, self', s', hrun, hbehind⟩

theorem read_step (hfeed : Feeds cb left) (hlen : 0 < len) (hbig : len < 2 ^ 63)
    (h : At ample further self (left s) ls owed d)
    (hroom : ∀ found, read_search self len cb s = some found → Affords found) :
    ∃ ret buf self' s', httpp_encoding_read self len (some cb) s = .ok (ret, buf, self', s') ∧
      (len ≤ d.length ∧ s' = s ∧ self'.bytes_till_eof = self.bytes_till_eof ∧
          At ample further self' (left s) ls owed (d.drop len) ∧ buf.take ret.toNat = d.take len ∨
        d.length < len ∧
          Stepped cb left ample further self s ls (d ++ owed ++ bodies ls)
            (buf.take ret.toNat) self' s') := by
  rcases Nat.lt_or_ge d.length len with hless | hle
  · obtain ⟨ret, buf, self', s', hrun, hstep⟩ := read_asked hfeed hlen hbig h hroom hless
    exact ⟨ret, buf, self', s', hrun, .inr ⟨hless, hstep⟩⟩
  · obtain ⟨self', hrun, heof, hat⟩ := read_decoded hlen hbig h hle
    refine ⟨_, _, _, _, hrun, .inl ⟨hle, rfl, heof, hat, ?_⟩⟩
    rw [Int.toNat_natCast, List.take_take, Nat.min_self]

end Read

end Encoding
