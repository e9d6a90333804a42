import IcecastCommon.Encoding.Parcels

/-!
# Reading data and metadata

What the decoder has still to deliver and to store, wherever it is in a stream of parcels, and that
each call only moves some of it to the caller.
-/

namespace Encoding

open Lib

variable {σ : Type}

/-- The decoder has still to read the lines of `cs`, and to take `owed` from the body
before them. -/
inductive Stage (further : Bytes) (self : httpp_encoding_t) (rest : Bytes) :
    List Parcel → Bytes → Prop
  | header {cs : List Parcel} {u : Bytes} (more : cs ≠ []) (eof : self.bytes_till_eof = -1)
      (skip : self.read_bytes_till_header = 0)
      (raw : Holds self.buf_read_raw self.buf_read_raw_offset self.buf_read_raw_len u)
      (coming : u ++ rest = wire further cs) : Stage further self rest cs []
  | body {cs : List Parcel} {owed u : Bytes} (eof : self.bytes_till_eof = if cs = [] then 2 else -1)
      (small : owed.length + 2 < 2 ^ 64) (skip : self.read_bytes_till_header = owed.length + 2)
      (raw : Holds self.buf_read_raw self.buf_read_raw_offset self.buf_read_raw_len u)
      (coming : u ++ rest = owed ++ (crlf ++ wire further cs)) (few : u.length ≤ 1)
      (direct : owed ≠ [] → u = []) :
      Stage further self rest cs owed
  | finished {u : Bytes} (eof : self.bytes_till_eof = 0 ∨ self.bytes_till_eof = 2)
      (skip : self.read_bytes_till_header = 0)
      (raw : Holds self.buf_read_raw self.buf_read_raw_offset self.buf_read_raw_len u) :
      Stage further self rest [] []

theorem Stage.congr {further rest owed : Bytes} {self self' : httpp_encoding_t} {cs : List Parcel}
    (h : Stage further self rest cs owed)
    (hkept : ∀ {u}, Holds self.buf_read_raw self.buf_read_raw_offset self.buf_read_raw_len u →
      Holds self'.buf_read_raw self'.buf_read_raw_offset self'.buf_read_raw_len u)
    (heof : self'.bytes_till_eof = self.bytes_till_eof)
    (hskip : self'.read_bytes_till_header = self.read_bytes_till_header) :
    Stage further self' rest cs owed := by
  cases h with
  | header more eof skip raw coming =>
    exact .header more (heof.trans eof) (hskip.trans skip) (hkept raw) coming
  | body eof small skip raw coming few direct =>
    exact .body (heof.trans eof) small (hskip.trans skip) (hkept raw) coming few direct
  | finished eof skip raw => exact .finished (by rwa [heof]) (hskip.trans skip) (hkept raw)

/-- Where the decoder is, with `d` decoded and not delivered. -/
structure Tuned (further : Bytes) (enc : httpp_encoding_t) (rest : Bytes) (cs : List Parcel)
    (owed d : Bytes) : Prop where
  chunked : enc.process = .chunked
  generous : Generous enc.grants
  ends : Sealed cs
  stage : Stage further enc rest cs owed
  decoded : Holds enc.buf_read_decoded enc.buf_read_decoded_offset enc.buf_read_decoded_len d

/-- The decoder has still to deliver `due`, and `items` are what it has stored and what it has still
to store. -/
def Hears (further : Bytes) (enc : httpp_encoding_t) (rest : Bytes) (due : Bytes)
    (items : List httpp_meta_t) : Prop :=
  ∃ cs owed d, Tuned further enc rest cs owed d ∧ d ++ owed ++ payload cs = due ∧
    enc.meta_read ++ (news cs).map stored = items

/-! ## The body of a chunk -/

section Body

variable {further rest body b w : Bytes} {self : httpp_encoding_t} {cs : List Parcel}

theorem length_eq_zero_iff_ends (hc : body = [] ↔ cs = []) : body.length = 0 ↔ cs = [] := by
  rw [List.length_eq_zero_iff, hc]

theorem hears_body (self : httpp_encoding_t) {new : httpp_encoding_t} {owed d : Bytes}
    (hchunked : new.process = .chunked) (hgen : Generous new.grants) (hends : Sealed cs)
    (hmeta : new.meta_read = self.meta_read) (hstage : Stage further new rest cs owed)
    (hd : Holds new.buf_read_decoded new.buf_read_decoded_offset new.buf_read_decoded_len d)
    (hbody : d ++ owed = body) :
    Hears further new rest (body ++ payload cs) (self.meta_read ++ (news cs).map stored) :=
  ⟨cs, owed, d, ⟨hchunked, hgen, hends, hstage, hd⟩, by rw [hbody], by rw [hmeta]⟩

theorem hears_body_empty (hchunked : self.process = .chunked) (hgen : Generous self.grants)
    (hends : Sealed cs) (hdec : Drained self)
    (h : Holds (some b) self.buf_read_raw_offset self.buf_read_raw_len [])
    (heof : self.bytes_till_eof = -1) (hsmall : body.length + 2 < 2 ^ 64)
    (hc : body = [] ↔ cs = []) (hw : rest = body ++ (crlf ++ wire further cs)) :
    ∃ self', enc_chunked_read_body self body.length = .ok (0, self') ∧
      Hears further self' rest (body ++ payload cs) (self.meta_read ++ (news cs).map stored) := by
  have hlen : self.buf_read_raw_offset = self.buf_read_raw_len := by simpa using h.length_eq.symm
  refine ⟨_, read_body_empty hlen _,
    hears_body self hchunked hgen hends rfl ?_ hdec.holds (List.nil_append _)⟩
  refine .body ?_ hsmall (Nat.mod_eq_of_lt hsmall) Holds.null hw (by simp) fun _ => rfl
  simp only [heof, length_eq_zero_iff_ends hc]

theorem hears_body_part (hchunked : self.process = .chunked) (hgen : Generous self.grants)
    (hends : Sealed cs) (hraw : self.buf_read_raw = some b)
    (h : Holds (some b) self.buf_read_raw_offset self.buf_read_raw_len w)
    (heof : self.bytes_till_eof = -1) (hsmall : body.length + 2 < 2 ^ 64)
    (hc : body = [] ↔ cs = []) (hne : w ≠ [])
    (hle : w.length ≤ body.length) (hw : w ++ rest = body ++ (crlf ++ wire further cs)) :
    ∃ self', enc_chunked_read_body self body.length = .ok (0, self') ∧
      Hears further self' rest (body ++ payload cs) (self.meta_read ++ (news cs).map stored) := by
  have hpos : 0 < w.length := List.length_pos_iff.mpr hne
  have hlen : self.buf_read_raw_offset ≠ self.buf_read_raw_len := by
    have := h.length_eq
    omega
  -- The body is `w` and what is owed.
  obtain ⟨owed, hbody, hrest⟩ := append_split hw.symm hle
  have hsub : size_sub ((body.length + 2) % 2 ^ 64) w.length = owed.length + 2 := by
    have hsum := congrArg List.length hbody
    rw [List.length_append] at hsum
    rw [Nat.mod_eq_of_lt hsmall, size_sub_of_le (by omega)]
    omega
  refine ⟨_, read_body_part hlen h.size_sub_eq hle,
    hears_body self hchunked hgen hends rfl ?_ (hraw ▸ h) hbody.symm⟩
  refine .body ?_ ?_ hsub Holds.null (by rw [List.nil_append, ← hrest]) (by simp) fun _ => rfl
  · simp only [heof, length_eq_zero_iff_ends hc]
  · have hsum := congrArg List.length hbody
    rw [List.length_append] at hsum
    omega

theorem stage_past {self : httpp_encoding_t} {u : Bytes}
    (heof : self.bytes_till_eof = if cs = [] then 0 else -1)
    (hskip : self.read_bytes_till_header = 0)
    (h : Holds self.buf_read_raw self.buf_read_raw_offset self.buf_read_raw_len u)
    (hu : u ++ rest = wire further cs) : Stage further self rest cs [] := by
  by_cases hlast : cs = []
  · subst hlast
    exact .finished (.inl heof) hskip h
  · rw [if_neg hlast] at heof
    exact .header hlast heof hskip h hu

theorem hears_body_rest (hchunked : self.process = .chunked) (hgen : Generous self.grants)
    (hends : Sealed cs) (hraw : self.buf_read_raw = some b)
    (h : Holds (some b) self.buf_read_raw_offset self.buf_read_raw_len w)
    (heof : self.bytes_till_eof = -1) (hc : body = [] ↔ cs = []) (hlt : body.length < w.length)
    (hw : w ++ rest = body ++ (crlf ++ wire further cs)) :
    ∃ self', enc_chunked_read_body self body.length = .ok (0, self') ∧
      Hears further self' rest (body ++ payload cs) (self.meta_read ++ (news cs).map stored) := by
  obtain ⟨v, rfl, hv⟩ := append_split hw hlt.le
  have hmoves := body_moves hraw h (by simpa using hlt) (hgen _ _ _)
  have hbehind :
      Holds (some b) (self.buf_read_raw_offset + body.length) self.buf_read_raw_len v := by
    simpa using h.skip (k := body.length) (by simp)
  have hdecoded : Holds (some body) 0 body.length body := ⟨Nat.zero_le _, rfl, rfl⟩
  have hgen' := hgen.later (malloc_later self.grants .read_decoded body.length)
  have hzero : body.length = 0 ↔ cs = [] := by rw [List.length_eq_zero_iff, hc]
  have hmoved : (body_moved self body).bytes_till_eof = if cs = [] then 2 else -1 := by
    simp only [body_moved, heof, hzero]
  have hskipped : (body_skipped self body).bytes_till_eof = if cs = [] then 0 else -1 := by
    rw [body_skipped, hmoved]
    split <;> simp
  refine ⟨_, hmoves, ?_⟩
  by_cases hshort : v.length < 2
  · rw [if_pos hshort]
    refine hears_body self hchunked hgen' hends rfl ?_ hdecoded (List.append_nil body)
    refine .body hmoved (by simp) rfl ?_ (by rw [hv, List.nil_append]) (by omega) fun hne =>
      absurd rfl hne
    simpa only [body_moved, hraw] using hbehind
  · obtain ⟨z, rfl, hz⟩ := append_split hv (show crlf.length ≤ v.length from Nat.not_lt.mp hshort)
    have hpast :
        Holds (some b) (self.buf_read_raw_offset + body.length + 2) self.buf_read_raw_len z :=
      hbehind.skip (k := 2) (by simp [crlf])
    rw [if_neg hshort]
    by_cases hz0 : z = []
    · rw [if_pos (by simp [hz0, crlf])]
      refine hears_body self hchunked hgen' hends rfl ?_ hdecoded (List.append_nil body)
      rw [hz0] at hz
      exact stage_past hskipped rfl Holds.null hz
    · rw [if_neg (by simpa [crlf] using hz0)]
      refine hears_body self hchunked hgen' hends rfl ?_ hdecoded (List.append_nil body)
      refine stage_past hskipped rfl ?_ hz
      simpa only [body_skipped, body_moved, hraw] using hpast

theorem hears_body_turn (self : httpp_encoding_t) (hchunked : self.process = .chunked)
    (hgen : Generous self.grants) (hends : Sealed cs) (hdec : Drained self)
    (hraw : self.buf_read_raw = some b)
    (h : Holds (some b) self.buf_read_raw_offset self.buf_read_raw_len w)
    (heof : self.bytes_till_eof = -1) (hsmall : body.length + 2 < 2 ^ 64) (hc : body = [] ↔ cs = [])
    (hw : w ++ rest = body ++ (crlf ++ wire further cs)) :
    ∃ self', enc_chunked_read_body self body.length = .ok (0, self') ∧
      Hears further self' rest (body ++ payload cs) (self.meta_read ++ (news cs).map stored) := by
  by_cases hne : w = []
  · subst hne
    exact hears_body_empty hchunked hgen hends hdec h heof hsmall hc hw
  · by_cases hle : w.length ≤ body.length
    · exact hears_body_part hchunked hgen hends hraw h heof hsmall hc hne hle hw
    · exact hears_body_rest hchunked hgen hends hraw h heof hc (by omega) hw

end Body

/-! ## The header and what comes before it -/

section Skip

variable {further rest b u unset : Bytes} {self : httpp_encoding_t} {cs : List Parcel}

theorem hears_header (self : httpp_encoding_t) (hchunked : self.process = .chunked)
    (hgen : Generous self.grants) (hends : Sealed cs) (more : cs ≠ []) (hdec : Drained self)
    (hraw : self.buf_read_raw = some b)
    (h : Holds (some b) self.buf_read_raw_offset self.buf_read_raw_len u)
    (heof : self.bytes_till_eof = -1) (hskip : self.read_bytes_till_header = 0)
    (hu : u ++ rest = wire further cs) :
    ∃ self', enc_chunked_read_header unset self = .ok (0, self') ∧
      Hears further self' rest (payload cs) (self.meta_read ++ (news cs).map stored) := by
  cases cs with
  | nil => exact absurd rfl more
  | cons c cs =>
    rcases c.split self.buf_read_raw_offset hu with ⟨hLF, -⟩ | ⟨w, rfl, hw⟩
    · refine ⟨self, header_unfinished hraw h hLF, c :: cs, [], [],
        ⟨hchunked, hgen, hends, ?_, hdec.holds⟩, rfl, rfl⟩
      exact .header more heof hskip (hraw ▸ h) hu
    · obtain ⟨b', offset', grants, hb', hgen', hrun⟩ := header_parcel c hraw hgen h
      obtain ⟨self', hbody, hhears⟩ :=
        hears_body_turn (header_taken self c b' offset' grants) hchunked hgen' hends.2
          hdec rfl hb' heof c.chunk.small hends.1 (by rw [hw, List.append_assoc])
      refine ⟨self', hrun.trans hbody, ?_⟩
      have hitems : (header_taken self c b' offset' grants).meta_read ++ (news cs).map stored =
          self.meta_read ++ (news (c :: cs)).map stored := by
        simp [header_taken, news]
      rwa [hitems] at hhears

theorem hears_skip_header (self : httpp_encoding_t) (hchunked : self.process = .chunked)
    (hgen : Generous self.grants) (hends : Sealed cs) (more : cs ≠ []) (hdec : Drained self)
    (hraw : self.buf_read_raw = some b)
    (h : Holds (some b) self.buf_read_raw_offset self.buf_read_raw_len u) (hne : u ≠ [])
    (heof : self.bytes_till_eof = -1) (hskip : self.read_bytes_till_header = 0)
    (hu : u ++ rest = wire further cs) :
    ∃ self', enc_chunked_read_skip unset self = .ok (0, self') ∧
      Hears further self' rest (payload cs) (self.meta_read ++ (news cs).map stored) := by
  have hpos : 0 < u.length := List.length_pos_iff.mpr hne
  have hself :
      { self with
        buf_read_raw_offset := self.buf_read_raw_offset + 0,
        read_bytes_till_header := 0 } = self := by
    rw [Nat.add_zero, ← hskip]
  rw [read_skip_past _ (by rw [h.size_sub_eq, hskip]; exact hpos), if_pos heof, hskip, hself]
  exact hears_header self hchunked hgen hends more hdec hraw h heof hskip hu

theorem hears_skip_body (self : httpp_encoding_t) (hchunked : self.process = .chunked)
    (hgen : Generous self.grants) (hends : Sealed cs) (hdec : Drained self)
    (hraw : self.buf_read_raw = some b)
    (h : Holds (some b) self.buf_read_raw_offset self.buf_read_raw_len u) (hne : u ≠ [])
    (heof : self.bytes_till_eof = if cs = [] then 2 else -1)
    (hskip : self.read_bytes_till_header = 2) (hu : u ++ rest = crlf ++ wire further cs) :
    ∃ self', enc_chunked_read_skip unset self = .ok (0, self') ∧
      Hears further self' rest (payload cs) (self.meta_read ++ (news cs).map stored) := by
  have hpos : 0 < u.length := List.length_pos_iff.mpr hne
  rcases Nat.lt_trichotomy u.length 2 with hlt | htwo | hgt
  · -- Only the CR is there.
    obtain ⟨a, ha, hrest⟩ := append_split hu.symm (show u.length ≤ crlf.length from hlt.le)
    have hCR : u = [CR] := by
      obtain ⟨x, rfl⟩ := List.length_eq_one_iff.mp (by omega : u.length = 1)
      simpa [crlf] using (List.cons.inj ha).1.symm
    have hnot_eof : self.bytes_till_eof ≠ 0 := by
      rw [heof]
      split <;> decide
    refine ⟨self, ?_, cs, [], [], ⟨hchunked, hgen, hends, ?_, hdec.holds⟩, rfl, rfl⟩
    · rw [read_skip_wait _ (by rw [h.size_sub_eq]; omega), if_neg hnot_eof]
      refine header_waits hraw h ?_
      rw [hCR]
      decide
    · refine .body heof (by simp) hskip (hraw ▸ h) hu (by omega) fun hne => absurd rfl hne
  · obtain ⟨hu2, hrest⟩ := List.append_inj hu htwo
    refine ⟨_, read_skip_all _ (by rw [h.size_sub_eq, hskip, htwo]), cs, [], [],
      ⟨hchunked, hgen, hends, ?_, hdec.holds⟩, rfl, rfl⟩
    by_cases hlast : cs = []
    · rw [if_pos hlast] at heof
      rw [hlast]
      exact .finished (.inr heof) rfl Holds.null
    · rw [if_neg hlast] at heof
      exact .header hlast heof rfl Holds.null hrest
  · obtain ⟨v, rfl, hv⟩ := append_split hu (show crlf.length ≤ u.length from hgt.le)
    have hbehind : Holds (some b) (self.buf_read_raw_offset + 2) self.buf_read_raw_len v :=
      h.skip (k := 2) (by simp [crlf])
    have hpast : enc_chunked_read_skip unset self = _ :=
      read_skip_past _ (by rw [h.size_sub_eq]; omega)
    rw [hskip] at hpast
    by_cases hlast : cs = []
    · rw [if_pos hlast] at heof
      rw [if_neg (by rw [heof]; decide)] at hpast
      refine ⟨_, hpast, cs, [], [], ⟨hchunked, hgen, hends, ?_, hdec.holds⟩, rfl, rfl⟩
      rw [hlast]
      exact .finished (.inl rfl) rfl (by rw [hraw]; exact hbehind)
    · rw [if_neg hlast] at heof
      rw [if_pos heof] at hpast
      obtain ⟨self', hrun, hhears⟩ := hears_header
        ({ self with
          buf_read_raw_offset := self.buf_read_raw_offset + 2, read_bytes_till_header := 0 })
        hchunked hgen hends hlast hdec hraw hbehind heof rfl hv
      exact ⟨self', hpast.trans hrun, hhears⟩

theorem hears_skip_finished (self : httpp_encoding_t) (hchunked : self.process = .chunked)
    (hgen : Generous self.grants) (hdec : Drained self)
    (h : Holds self.buf_read_raw self.buf_read_raw_offset self.buf_read_raw_len u) (hne : u ≠ [])
    (heof : self.bytes_till_eof = 0 ∨ self.bytes_till_eof = 2)
    (hskip : self.read_bytes_till_header = 0) :
    ∃ self', enc_chunked_read_skip unset self = .ok (0, self') ∧
      Hears further self' rest (payload []) (self.meta_read ++ (news []).map stored) := by
  have hpos : 0 < u.length := List.length_pos_iff.mpr hne
  rw [read_skip_past _ (by rw [h.size_sub_eq, hskip]; exact hpos), if_neg (by omega), hskip,
    Nat.add_zero]
  exact ⟨_, rfl, [], [], [], ⟨hchunked, hgen, trivial, .finished (.inl rfl) rfl h, hdec.holds⟩, rfl,
    rfl⟩

end Skip

/-! ## One call of the handler -/

section Handler

variable {cb : ReadCallback σ} {left : σ → Bytes} {further due : Bytes}
  {self : httpp_encoding_t} {s : σ} {cs : List Parcel} {owed d : Bytes}
  {items : List httpp_meta_t} {len : Nat}

/-- The call only moved bytes from the stream to `got`. -/
def Heard (left : σ → Bytes) (further due got : Bytes) (items : List httpp_meta_t)
    (new : httpp_encoding_t) (s' : σ) : Prop :=
  ∃ due', got ++ due' = due ∧ Hears further new (left s') due' items

theorem hears_fill (len : Nat) (hfeed : Feeds cb left) (h : Tuned further self (left s) cs [] [])
    (hdec : Drained self) :
    ∃ ret self' s', enc_chunked_read self len (some cb) s = .ok (ret, [], self', s') ∧
      (ret = -1 ∨ ret = 0) ∧
      Hears further self' (left s') (payload cs) (self.meta_read ++ (news cs).map stored) := by
  obtain ⟨hchunked, hgen, hends, hstage, hdecoded⟩ := h
  obtain ⟨u, hraw, hskip⟩ : ∃ u,
    Holds self.buf_read_raw self.buf_read_raw_offset self.buf_read_raw_len u ∧
      self.read_bytes_till_header ≤ 2 := by
    cases hstage with
    | header more eof skip raw coming => exact ⟨_, raw, by omega⟩
    | body eof small skip raw coming few direct => exact ⟨_, raw, by simpa using skip.le⟩
    | finished eof skip raw => exact ⟨_, raw, by omega⟩
  have hgen' : Generous (filling self).grants :=
    hgen.later (malloc_later self.grants .read_raw (self.buf_read_raw_len + buflen self))
  have hrun := fill_run s len hfeed hskip hraw
  rw [if_pos (hgen _ _ _)] at hrun
  rcases hfeed.step s (buflen self) with ⟨hret, hsame⟩ | ⟨hsome, hret, htook⟩
  · rw [if_pos (by omega)] at hrun
    refine ⟨_, _, _, hrun, hret.symm, cs, [], [], ⟨hchunked, hgen', hends, ?_, hdecoded⟩, rfl, rfl⟩
    rw [hsame]
    exact hstage.congr Holds.kept rfl rfl
  · have hdlen : 0 < (cb s (buflen self)).1.2.length := List.length_pos_iff.mpr hsome
    rw [if_neg (by omega)] at hrun
    -- The buffer with the fragment.
    let filled : httpp_encoding_t :=
      { filling self with
        buf_read_raw := some (self.buf_read_raw.getD [] ++ (cb s (buflen self)).1.2)
        buf_read_raw_len := self.buf_read_raw_len + (cb s (buflen self)).1.1.toNat }
    have hfilled {u : Bytes}
      (hu : Holds self.buf_read_raw self.buf_read_raw_offset self.buf_read_raw_len u) :
        Holds (some (self.buf_read_raw.getD [] ++ (cb s (buflen self)).1.2))
          filled.buf_read_raw_offset
          filled.buf_read_raw_len (u ++ (cb s (buflen self)).1.2) := by
      have := hu.append (cb s (buflen self)).1.2
      rwa [show (cb s (buflen self)).1.2.length = (cb s (buflen self)).1.1.toNat by omega] at this
    have hcome {u v : Bytes} (huv : u ++ left s = v) :
        u ++ (cb s (buflen self)).1.2 ++ left (cb s (buflen self)).2 = v := by
      rw [← huv, htook, List.append_assoc]
    have hne (u : Bytes) : u ++ (cb s (buflen self)).1.2 ≠ [] := by simp [hsome]
    have hdrained : Drained filled := hdec
    generalize List.replicate (buflen self - (cb s (buflen self)).1.2.length) (0 : Byte) =
      unset at hrun
    obtain ⟨self', hskipped, hhears⟩ : ∃ self',
      enc_chunked_read_skip unset filled = .ok (0, self') ∧
        Hears further self' (left (cb s (buflen self)).2) (payload cs)
          (self.meta_read ++ (news cs).map stored) := by
      cases hstage with
      | header more eof skip raw coming =>
        exact hears_skip_header filled hchunked hgen' hends more hdrained rfl (hfilled raw)
          (hne _) eof skip
          (hcome coming)
      | body eof small skip raw coming few direct =>
        exact hears_skip_body filled hchunked hgen' hends hdrained rfl (hfilled raw)
          (hne _) eof skip
          (hcome coming)
      | finished eof skip raw =>
        exact hears_skip_finished filled hchunked hgen' hdrained (hfilled raw) (hne _) eof skip
    rw [hskipped] at hrun
    exact ⟨0, self', _, hrun, .inr rfl, hhears⟩

theorem hears_direct (hfeed : Feeds cb left) (hlen : 0 < len) (howed : owed ≠ [])
    (h : Tuned further self (left s) cs owed []) :
    ∃ ret data self' s', enc_chunked_read self len (some cb) s = .ok (ret, data, self', s') ∧
      (ret = -1 ∨ ret = (data.take ret.toNat).length) ∧ ret ≤ len ∧
      Heard left further (owed ++ payload cs) (data.take ret.toNat)
        (self.meta_read ++ (news cs).map stored) self' s' := by
  obtain ⟨hchunked, hgen, hends, hstage, hdecoded⟩ := h
  cases hstage with
  | header => exact absurd rfl howed
  | finished => exact absurd rfl howed
  | @body _ _ u eof small skip raw coming few direct =>
    obtain rfl := direct howed
    obtain ⟨n, ret, data, s', -, -, hle, hcase⟩ := direct_asks hfeed hlen howed skip coming
    rcases hcase with ⟨hret, hgot, hsame, hrun⟩ | ⟨owed', hsome, hret, hgot, rfl, -, hrest, hrun⟩
    · refine ⟨_, _, _, _, hrun, ?_, hle, owed ++ payload cs, by rw [hgot, List.nil_append], cs,
        owed, [], ?_, rfl, rfl⟩
      · rw [hgot]
        exact hret
      · refine ⟨hchunked, hgen, hends, ?_, hdecoded⟩
        rw [hsame]
        exact .body eof small skip raw coming few direct
    · rw [List.length_append] at small
      refine ⟨_, _, _, _, hrun, .inr hret, hle, owed' ++ payload cs, ?_, cs, owed', [], ?_, rfl,
        rfl⟩
      · rw [hgot, List.append_assoc]
      · exact ⟨hchunked, hgen, hends, .body eof (by omega) rfl raw hrest few fun _ => rfl, hdecoded⟩

theorem hears_handler (hfeed : Feeds cb left) (hlen : 0 < len) (hdec : Drained self)
    (h : Tuned further self (left s) cs owed []) :
    ∃ ret data self' s', enc_chunked_read self len (some cb) s = .ok (ret, data, self', s') ∧
      (ret = -1 ∨ ret = (data.take ret.toNat).length) ∧ ret ≤ len ∧
      Heard left further (owed ++ payload cs) (data.take ret.toNat)
        (self.meta_read ++ (news cs).map stored) self' s' := by
  by_cases howed : owed = []
  · subst howed
    obtain ⟨ret, self', s', hrun, hret, hhears⟩ := hears_fill len hfeed h hdec
    exact ⟨ret, [], self', s', hrun, by simpa using hret, by omega, payload cs, by simp, hhears⟩
  · exact hears_direct hfeed hlen howed h

/-! ## A call of `httpp_encoding_read` -/

theorem hears_copied {rest : Bytes} (hlen : 0 < len) (h : Hears further self rest due items) :
    ∃ ret got self' cs owed d, copy_decoded self len = .ok (ret, got, self') ∧
      Tuned further self' rest cs owed d ∧
      got ++ (d ++ owed ++ payload cs) = due ∧ self'.meta_read ++ (news cs).map stored = items ∧
      (if ret > 0 then ret else 0) = got.length ∧ (ret = -1 ∧ got = [] ∨ ret = got.length) ∧
      got.length ≤ len ∧
      (got.length < len → d = [] ∧ Drained self') := by
  obtain ⟨cs, owed, d, ht, hdue, hitems⟩ := h
  obtain ⟨ret, src, boffset, blen, hcopy, hholds, hpos, hret, hnone⟩ :=
    copy_buffer_spec hlen ht.decoded
  let new :=
    { self with
      buf_read_decoded := src, buf_read_decoded_offset := boffset, buf_read_decoded_len := blen }
  refine ⟨ret, d.take len, new, cs, owed, d.drop len, ?_, ?_, ?_, hitems, hpos, ?_,
    List.length_take_le _ _, ?_⟩
  · unfold copy_decoded
    rw [hcopy]
    rfl
  · exact ⟨ht.chunked, ht.generous, ht.ends, ht.stage.congr (fun hu => hu) rfl rfl, hholds⟩
  · rw [← hdue, List.append_assoc, List.append_assoc, ← List.append_assoc (d.take len),
      List.take_append_drop]
  · rcases hret with ⟨hminus, hnil⟩ | hret
    · exact .inl ⟨hminus, by rw [hnil, List.take_nil]⟩
    · exact .inr hret
  · intro hlt
    rw [List.length_take] at hlt
    exact ⟨List.drop_eq_nil_of_le (by omega), hholds.drained (hnone (by omega))⟩

/-- Behind the backend, what it has made ready is copied as far as there is room for it. -/
theorem hears_more {self2 : httpp_encoding_t} {s' : σ} {due : Bytes} (k : Nat) (done : Bytes)
    (h : Hears further self2 (left s') due items) :
    ∃ ret buf self',
      (if k = 0 then .ok ((done.length : Int), done, self2, s')
      else do
        let (m, more, self3) ← copy_decoded self2 k
        if m > 0 then return (done.length + m, done ++ more, self3, s')
        return (done.length, done, self3, s')) = Except.ok (ret, buf, self', s') ∧
      Heard left further (done ++ due) (buf.take ret.toNat) items self' s' := by
  by_cases hfull : k = 0
  · refine ⟨_, _, _, if_pos hfull, due, ?_, h⟩
    rw [Int.toNat_natCast, List.take_length]
  · obtain ⟨ret, more, self3, cs, owed, d, hcopy, htuned, hdue, hitems, hpos, -, -, -⟩ :=
      hears_copied (Nat.pos_of_ne_zero hfull) h
    have hrest : done ++ more ++ (d ++ owed ++ payload cs) = done ++ due := by
      rw [List.append_assoc, hdue]
    rw [if_neg hfull, hcopy, ok_bind]
    by_cases hret : ret > 0
    · simp only [hret, if_true, pure_eq_ok] at hpos ⊢
      refine ⟨_, _, _, rfl, _, ?_, cs, owed, d, htuned, rfl, hitems⟩
      have hsum : (done ++ more).length = done.length + more.length := List.length_append
      rwa [show ((done.length : Int) + ret).toNat = (done ++ more).length by omega,
        List.take_length]
    · simp only [if_false, hret, pure_eq_ok] at hpos ⊢
      obtain rfl : more = [] := List.eq_nil_of_length_eq_zero (by omega)
      refine ⟨_, _, _, rfl, _, ?_, cs, owed, d, htuned, rfl, hitems⟩
      rw [Int.toNat_natCast, List.take_length]
      rwa [List.append_nil] at hrest

/-- **One read.** It delivers the front of what was due, and loses nothing. -/
theorem hears_read (hfeed : Feeds cb left) (hlen : 0 < len) (hbig : len < 2 ^ 63)
    (h : Hears further self (left s) due items) :
    ∃ ret buf self' s', httpp_encoding_read self len (some cb) s = .ok (ret, buf, self', s') ∧
      Heard left further due (buf.take ret.toNat) items self' s' := by
  obtain ⟨ret, got, self1, cs, owed, d, hcopy, htuned, hdue, hitems, hpos, hret, hle, hdrained⟩ :=
    hears_copied hlen h
  by_cases hall : got.length = len
  · -- The decoded bytes are enough.
    have hret' : ret = ssize len := by
      rw [ssize_of_lt hbig]
      rcases hret with ⟨-, rfl⟩ | hret
      · simp at hall
        omega
      · rw [hret, hall]
    refine ⟨_, _, _, _, read_enough hlen.ne' hcopy hret', d ++ owed ++ payload cs, ?_, cs, owed, d,
      htuned, rfl, hitems⟩
    rw [hret', ssize_of_lt hbig, Int.toNat_natCast, ← hall, List.take_length]
    exact hdue
  · obtain ⟨rfl, hdec⟩ := hdrained (by omega)
    rw [List.nil_append] at hdue
    have hne : ret ≠ ssize len := by
      rw [ssize_of_lt hbig]
      omega
    have hless : (if ret > 0 then size_sub len ret.toNat else len) = len - got.length := by
      split_ifs at hpos ⊢
      · rw [size_sub_of_le (by omega)]
        omega
      · omega
    obtain ⟨ret1, data, self2, s', hread, hret1, hle1, due', hsplit, hhears⟩ :=
      hears_handler hfeed (show 0 < len - got.length by omega) hdec htuned
    rw [hitems] at hhears
    have hhandler :
        process_read self1 (len - got.length) (some cb) s = .ok (ret1, data, self2, s') :=
      (process_read_chunked htuned.chunked _ _ _).trans hread
    obtain ⟨got1, hgot1⟩ : ∃ got1, data.take ret1.toNat = got1 := ⟨_, rfl⟩
    rw [hgot1] at hret1 hsplit
    rcases hret1 with rfl | hret1
    · obtain ⟨ret', hrun, htaken⟩ := read_fails hlen.ne' hcopy hne hpos hless hhandler
      obtain rfl : [] = got1 := hgot1
      refine ⟨_, _, _, _, hrun, due', ?_, hhears⟩
      rw [htaken, ← hdue, ← hsplit]
      rfl
    · have hrun :=
        read_goes_on hlen.ne' hbig hcopy hne hpos hless (by omega) hgot1 hret1 (by omega) hhandler
      obtain ⟨ret2, buf, self3, hmore, hheard⟩ :=
        hears_more (len - got.length - got1.length) (got ++ got1) hhears
      refine ⟨_, _, _, _, hrun.trans hmore, ?_⟩
      rwa [List.append_assoc, hsplit, hdue] at hheard

theorem Hears.announced {rest : Bytes} (h : Hears further self rest due items)
    (heof : httpp_encoding_eof self none s = 1) : due = [] ∧ self.meta_read = items := by
  obtain ⟨cs, owed, d, ht, rfl, rfl⟩ := h
  unfold httpp_encoding_eof at heof
  rw [ht.decoded.size_sub_eq] at heof
  split_ifs at heof with hd hend
  · exact absurd heof (by decide)
  · obtain rfl : d = [] := List.eq_nil_of_length_eq_zero (by omega)
    cases ht.stage with
    | header more eof => omega
    | body eof => split at eof <;> omega
    | finished => exact ⟨rfl, (List.append_nil _).symm⟩
  · exact absurd heof (by simp)

theorem Hears.get_meta {rest : Bytes} (h : Hears further self rest due items) :
    ∃ more, self.meta_read ++ more = items ∧
      Hears further (httpp_encoding_get_meta self).2 rest due more := by
  obtain ⟨cs, owed, d, ht, hdue, hitems⟩ := h
  refine ⟨(news cs).map stored, hitems, cs, owed, d, ?_, hdue, rfl⟩
  exact ⟨ht.chunked, ht.generous, ht.ends, ht.stage.congr (fun hu => hu) rfl rfl, ht.decoded⟩

end Handler

end Encoding
