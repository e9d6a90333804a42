import IcecastCommon.Encoding.Reads

/-!
# Indices of the raw buffer

Which bytes of `buf_read_raw` a call of `__enc_chunked_read` reads to find a header, and which
one it overwrites to cut it, whatever the peer sends.
-/

namespace Encoding

open Lib

variable {σ : Type}

/-! ## One search -/

/-- The indices that the search from `i` on reads: it goes on as long as it found no end. -/
def scan_indices (i : Nat) (line : Bytes) : List Nat :=
  ((List.range line.length).filter fun k =>
    (scan_loop {} i (line.take k)).offset_LF = -1).map (i + ·)

/-- All indices that finding and cutting a header uses. -/
def header_indices (i : Nat) (line : Bytes) : List Int :=
  (scan_indices i line).map Int.ofNat ++
    if (scan_loop {} i line).offset_LF = -1 then [] else [(scan_loop {} i line).cut]

/-- What a search has found before it comes to index `i`. -/
structure Placed (start i : Nat) (s : Scan) : Prop where
  extentions : s.offset_extentions = -1 ∨ start ≤ s.offset_extentions ∧ s.offset_extentions < i
  CR : s.offset_CR = -1 ∨ start ≤ s.offset_CR ∧ s.offset_CR < i

theorem Placed.mono {start i j : Nat} {s : Scan} (h : Placed start i s) (hij : i ≤ j) :
    Placed start j s := by
  constructor
  · have := h.extentions
    omega
  · have := h.CR
    omega

theorem scan_loop_placed {start i : Nat} {s : Scan} (l : Bytes) (hle : start ≤ i)
    (hLF : s.offset_LF = -1) (h : Placed start i s) :
    (scan_loop s i l).offset_LF = -1 ∨
    ∃ k, l[k]? = some LF ∧ (scan_loop s i l).offset_LF = (i + k : Nat) ∧
      (scan_loop s i l).offset_CR = ((i + k : Nat) : Int) - 1 ∧
      Placed start (i + k) (scan_loop s i l) := by
  induction l generalizing s i with
  | nil => exact .inl hLF
  | cons c l ih =>
    have hnext {s' : Scan} (hLF' : s'.offset_LF = -1) (h' : Placed start (i + 1) s') :
        (scan_loop s' (i + 1) l).offset_LF = -1 ∨
        ∃ k, (c :: l)[k]? = some LF ∧ (scan_loop s' (i + 1) l).offset_LF = (i + k : Nat) ∧
          (scan_loop s' (i + 1) l).offset_CR = ((i + k : Nat) : Int) - 1 ∧
          Placed start (i + k) (scan_loop s' (i + 1) l) := by
      rcases ih (by omega) hLF' h' with hnone | ⟨k, hk, hend, hCR, hplaced⟩
      · exact .inl hnone
      · refine .inr ⟨k + 1, by simpa using hk, ?_⟩
        rw [show i + (k + 1) = i + 1 + k by omega]
        exact ⟨hend, hCR, hplaced⟩
    have hmono := h.mono (Nat.le_succ i)
    unfold scan_loop
    split_ifs with _ _ hsemi _ hend
    · exact hnext hLF ⟨hmono.extentions, hmono.CR⟩
    · exact hnext hLF ⟨hmono.extentions, hmono.CR⟩
    · refine hnext hLF ⟨.inr ⟨?_, ?_⟩, hmono.CR⟩
      · show (start : Int) ≤ (i : Int)
        omega
      · show (i : Int) < ((i + 1 : Nat) : Int)
        omega
    · refine hnext hLF ⟨hmono.extentions, .inr ⟨?_, ?_⟩⟩
      · show (start : Int) ≤ (i : Int)
        omega
      · show (i : Int) < ((i + 1 : Nat) : Int)
        omega
    · refine .inr ⟨0, by simp [hend.1], rfl, hend.2, ⟨h.extentions, h.CR⟩⟩
    · exact hnext hLF hmono

theorem scan_loop_end {i : Nat} {l : Bytes} (h : (scan_loop {} i l).offset_LF ≠ -1) :
    ∃ j : Nat, (scan_loop {} i l).offset_LF = j ∧ j < i + l.length ∧
      ((i = 0 ∧ l.head? = some LF) ∨
        i ≤ (scan_loop {} i l).offset_CR ∧ i ≤ (scan_loop {} i l).cut ∧
        (scan_loop {} i l).cut < j) := by
  rcases scan_loop_placed (s := {}) l (le_refl i) rfl ⟨.inl rfl, .inl rfl⟩
    with hnone | ⟨k, hk, hend, hCR, hplaced⟩
  · exact absurd hnone h
  · obtain ⟨hlt, -⟩ := List.getElem?_eq_some_iff.mp hk
    have hcr := hplaced.CR
    have hext := hplaced.extentions
    refine ⟨i + k, hend, by omega, ?_⟩
    by_cases hzero : i + k = 0
    · left
      refine ⟨by omega, ?_⟩
      rw [List.head?_eq_getElem?, ← hk]
      congr 1
      omega
    · right
      refine ⟨by omega, ?_⟩
      unfold Scan.cut
      split_ifs <;> omega

theorem scan_loop_bare (l : Bytes) :
    scan_loop {} 0 (LF :: l) = { offset_LF := 0 } := by
  unfold scan_loop
  rw [if_neg (by decide), if_neg (by decide), if_neg (by decide), if_neg (by decide),
    if_pos (by decide)]
  rfl

/-- Every index lies between the offset and the length, and the CR behind the offset. -/
structure Within (h : httpp_encoding_t) : Prop where
  allocated : h.buf_read_raw_len ≤ (h.buf_read_raw.getD []).length
  indices : ∀ k ∈ header_indices h.buf_read_raw_offset (window h),
    h.buf_read_raw_offset ≤ k ∧ k < h.buf_read_raw_len
  CR : (scan_loop {} h.buf_read_raw_offset (window h)).offset_LF ≠ -1 →
    h.buf_read_raw_offset ≤ (scan_loop {} h.buf_read_raw_offset (window h)).offset_CR

/-- There is nothing before the header, and it starts with an LF. -/
def BareLF (h : httpp_encoding_t) : Prop := h.buf_read_raw_offset = 0 ∧ (window h).head? = some LF

/-- The raw buffer has the bytes that are counted. -/
def Sound (self : httpp_encoding_t) : Prop :=
  ∀ raw, self.buf_read_raw = some raw →
    raw.length = self.buf_read_raw_len ∧ self.buf_read_raw_offset ≤ self.buf_read_raw_len

theorem window_length {h : httpp_encoding_t} {raw : Bytes} (hraw : h.buf_read_raw = some raw)
    (hs : Sound h) :
    h.buf_read_raw_offset + (window h).length = h.buf_read_raw_len := by
  obtain ⟨hlen, hle⟩ := hs raw hraw
  simp only [window, hraw, Option.getD_some, List.length_take, List.length_drop]
  omega

theorem within_iff {h : httpp_encoding_t} {raw : Bytes} (hraw : h.buf_read_raw = some raw)
    (hs : Sound h) :
    Within h ↔ ¬ BareLF h := by
  have hwin := window_length hraw hs
  constructor
  · rintro hw ⟨hzero, hhead⟩
    obtain ⟨l, hl⟩ : ∃ l, window h = LF :: l := by
      cases hc : window h with
      | nil => simp [hc] at hhead
      | cons c l => simp_all
    have hCR := hw.CR
    rw [hzero, hl, scan_loop_bare] at hCR
    exact absurd (hCR (by decide)) (by decide)
  · intro hbare
    refine ⟨?_, ?_, ?_⟩
    · rw [hraw, Option.getD_some, (hs raw hraw).1]
    · intro k hk
      rw [header_indices, List.mem_append] at hk
      rcases hk with hk | hk
      · simp only [scan_indices, List.map_map, List.mem_map, List.mem_filter, List.mem_range] at hk
        obtain ⟨n, ⟨hn, -⟩, rfl⟩ := hk
        simp only [Function.comp_apply, Int.ofNat_eq_natCast]
        omega
      · split_ifs at hk with hnone
        · simp at hk
        · rw [List.mem_singleton] at hk
          obtain ⟨j, -, hj, hb | ⟨-, hlo, hhi⟩⟩ := scan_loop_end hnone
          · exact absurd hb hbare
          · subst hk
            omega
    · intro hfound
      obtain ⟨-, -, -, hb | ⟨hlo, -⟩⟩ := scan_loop_end hfound
      · exact absurd hb hbare
      · exact hlo

/-! ## Calls -/

/-- Only metadata was added, with some of the allocator's answers used up. -/
def Collected (self self' : httpp_encoding_t) : Prop :=
  ∃ items grants, self' = { self with meta_read := items, grants := grants }

/-- `Collected`, and the allocator has not been asked for a body. -/
def Gathered (self self' : httpp_encoding_t) : Prop :=
  ∃ items grants, grants .read_decoded = self.grants .read_decoded ∧
    self' = { self with meta_read := items, grants := grants }

theorem Gathered.collected {self self' : httpp_encoding_t} (h : Gathered self self') :
    Collected self self' := by
  obtain ⟨items, grants, -, rfl⟩ := h
  exact ⟨items, grants, rfl⟩

theorem Gathered.trans {x y z : httpp_encoding_t} (h : Gathered x y) (h' : Gathered y z) :
    Gathered x z := by
  obtain ⟨items, grants, hgrants, rfl⟩ := h
  obtain ⟨items', grants', hgrants', rfl⟩ := h'
  exact ⟨items', grants', hgrants'.trans hgrants, rfl⟩

theorem gathered_add {self : httpp_encoding_t} {grants : Grants} (item : httpp_meta_t)
    (h : grants .read_decoded = self.grants .read_decoded) :
    Gathered self (add_meta_read { self with grants := grants } item) := ⟨_, _, h, rfl⟩

/-- What a round makes of the extension at `p`. -/
structure Round (raw : Bytes) (grants : Grants) (p len key_len : Nat) (item : httpp_meta_t) :
    Prop where
  measured : key_loop raw (p + 1) (len - 1) = .ok key_len
  granted : (malloc grants .item 32).1 = true
  key : ∀ block, item.key = some block →
    (malloc (malloc grants .item 32).2 .key (key_len + 1)).1 = true ∧
      ∃ key, slice raw (p + 1) key_len = .ok key ∧ block = key ++ [0]
  value : ∀ block, item.value = some block → ∃ value_len value,
    value_loop raw (p + 1 + key_len + 1) 0 (len - 1 - key_len - 1) = .ok value_len ∧
      (malloc (malloc (malloc grants .item 32).2 .key (key_len + 1)).2 .value (value_len + 1)).1 =
        true ∧
      decode_loop raw (p + 1 + key_len + 1 + value_len) (value_len + 1)
        (p + 1 + key_len + 1) 0 [] value_len =
        .ok value ∧ item.value_len = value.length

theorem extentions_round {raw : Bytes} {fuel : Nat} {self self' : httpp_encoding_t} {p len : Nat}
    (h : extentions_loop raw (fuel + 1) self p len = .ok self') :
    self' = self ∧ (len = 0 ∨ read raw p ≠ .ok (ch ';')) ∨
    ∃ key_len item grants, Round raw self.grants p len key_len item ∧
      grants .read_decoded = self.grants .read_decoded ∧
      (self' = add_meta_read { self with grants := grants } item ∨
        ∃ p' len',
        extentions_loop raw fuel (add_meta_read { self with grants := grants } item) p' len' =
        .ok self') := by
  unfold extentions_loop at h
  rcases ite_eq_iff.mp h with ⟨hlen, h⟩ | ⟨-, h⟩
  · cases h
    exact .inl ⟨rfl, .inl hlen⟩
  obtain ⟨c, hc, h⟩ := bind_eq_ok.mp h
  rcases ite_eq_iff.mp h with ⟨hsemi, h⟩ | ⟨-, h⟩
  · cases h
    refine .inl ⟨rfl, .inr fun hread => hsemi ?_⟩
    exact Except.ok.inj (hc.symm.trans hread)
  rw [meta_new_null] at h
  by_cases hgranted : (malloc self.grants .item 32).1 = true
  · rw [if_pos hgranted] at h
    have hitem : (malloc self.grants .item 32).2 .read_decoded = self.grants .read_decoded :=
      malloc_other _ (by decide) _
    obtain ⟨key_len, hmeasured, h⟩ := bind_eq_ok.mp h
    have hkey : (malloc (malloc self.grants .item 32).2 .key (key_len + 1)).2 .read_decoded =
        self.grants .read_decoded := (malloc_other _ (by decide) _).trans hitem
    right
    rcases ite_eq_iff.mp h with ⟨-, h⟩ | ⟨hgrant, h⟩
    · cases h
      refine ⟨key_len, _, _, ?_, hkey, .inl rfl⟩
      exact ⟨hmeasured, hgranted, nofun, nofun⟩
    obtain ⟨key, hslice, h⟩ := bind_eq_ok.mp h
    have hkeyed : ∀ block, some (key ++ [0]) = some block →
        (malloc (malloc self.grants .item 32).2 .key (key_len + 1)).1 = true ∧
          ∃ key, slice raw (p + 1) key_len = .ok key ∧ block = key ++ [0] := by
      rintro _ ⟨⟩
      exact ⟨not_not.mp hgrant, key, hslice, rfl⟩
    rcases ite_eq_iff.mp h with ⟨-, h⟩ | ⟨-, h⟩
    · cases h
      refine ⟨key_len, _, _, ?_, hkey, .inl rfl⟩
      exact ⟨hmeasured, hgranted, hkeyed, nofun⟩
    obtain ⟨_, -, h⟩ := bind_eq_ok.mp h
    rcases ite_eq_iff.mp h with ⟨-, h⟩ | ⟨-, h⟩
    · refine ⟨key_len, _, _, ?_, hkey, .inr ⟨_, _, h⟩⟩
      exact ⟨hmeasured, hgranted, hkeyed, nofun⟩
    rcases ite_eq_iff.mp h with ⟨-, h⟩ | ⟨-, h⟩
    · cases h
      refine ⟨key_len, _, _, ?_, hkey, .inl rfl⟩
      exact ⟨hmeasured, hgranted, hkeyed, nofun⟩
    obtain ⟨value_len, hvalue, h⟩ := bind_eq_ok.mp h
    have hvalued := (malloc_other (malloc (malloc self.grants .item 32).2 .key (key_len + 1)).2
      (show Site.read_decoded ≠ .value by decide) (value_len + 1)).trans hkey
    rcases ite_eq_iff.mp h with ⟨-, h⟩ | ⟨hgrant', h⟩
    · cases h
      refine ⟨key_len, _, _, ?_, hvalued, .inl rfl⟩
      exact ⟨hmeasured, hgranted, hkeyed, nofun⟩
    obtain ⟨value, hdecode, h⟩ := bind_eq_ok.mp h
    obtain ⟨_, -, h⟩ := bind_eq_ok.mp h
    refine ⟨key_len, _, _, ⟨hmeasured, hgranted, hkeyed, ?_⟩, hvalued, .inr ⟨_, _, h⟩⟩
    rintro _ -
    exact ⟨value_len, value, hvalue, not_not.mp hgrant', hdecode, rfl⟩
  · rw [if_neg hgranted] at h
    exact absurd h (by simp)

theorem extentions_loop_gathered {raw : Bytes} {fuel : Nat} {self self' : httpp_encoding_t}
    {p len : Nat} (h : extentions_loop raw fuel self p len = .ok self') : Gathered self self' := by
  induction fuel generalizing self p len with
  | zero => exact absurd h (by simp [extentions_loop])
  | succ fuel ih =>
    rcases extentions_round h with ⟨rfl, -⟩ | ⟨_, item, grants, -, hgrants, rfl | ⟨p', len', h⟩⟩
    · exact ⟨_, _, rfl, rfl⟩
    · exact gathered_add item hgrants
    · exact (gathered_add item hgrants).trans (ih h)

theorem extentions_loop_appends {raw : Bytes} {fuel : Nat} {self self' : httpp_encoding_t}
    {p len : Nat} (h : extentions_loop raw fuel self p len = .ok self') :
    self.meta_read <+: self'.meta_read := by
  induction fuel generalizing self p len with
  | zero => exact absurd h (by simp [extentions_loop])
  | succ fuel ih =>
    rcases extentions_round h with ⟨rfl, -⟩ | ⟨_, item, grants, -, -, rfl | ⟨p', len', h⟩⟩
    · exact List.prefix_rfl
    · exact List.prefix_append _ _
    · exact (List.prefix_append _ _).trans (ih h)

theorem extentions_loop_collected {raw : Bytes} {fuel : Nat} {self self' : httpp_encoding_t}
    {p len : Nat} (h : extentions_loop raw fuel self p len = .ok self') : Collected self self' :=
  (extentions_loop_gathered h).collected

/-! ### What a call leaves behind -/

theorem deref_eq_ok {α : Type} {p : Option α} {a : α} (h : deref p = .ok a) : p = some a := by
  cases p with
  | none => exact absurd h (by simp [deref])
  | some b => exact congrArg some (Except.ok.inj h)

theorem Sound.keep {self self' : httpp_encoding_t} (h : Sound self)
    (hraw : self'.buf_read_raw = self.buf_read_raw)
    (hoffset : self'.buf_read_raw_offset = self.buf_read_raw_offset)
    (hlen : self'.buf_read_raw_len = self.buf_read_raw_len) : Sound self' := by
  intro raw hr
  rw [hoffset, hlen]
  exact h raw (hraw ▸ hr)

theorem sound_null {self : httpp_encoding_t} (hraw : self.buf_read_raw = none) : Sound self := by
  intro raw hr
  exact absurd hr (by simp [hraw])

theorem body_sound {self self' : httpp_encoding_t} {bodylen : Nat} {ret : Int} (h : Sound self)
    (hrun : enc_chunked_read_body self bodylen = .ok (ret, self')) : Sound self' := by
  unfold enc_chunked_read_body at hrun
  rcases ite_eq_iff.mp hrun with ⟨-, hrun⟩ | ⟨-, hrun⟩
  · cases hrun
    exact sound_null rfl
  rcases ite_eq_iff.mp hrun with ⟨-, hrun⟩ | ⟨hmore, hrun⟩
  · cases hrun
    exact sound_null rfl
  rcases ite_eq_iff.mp hrun with ⟨-, hrun⟩ | ⟨-, hrun⟩
  · cases hrun
    exact h.keep rfl rfl rfl
  obtain ⟨raw, hraw, hrun⟩ := bind_eq_ok.mp hrun
  obtain ⟨body, hbody, hrun⟩ := bind_eq_ok.mp hrun
  have hsome : self.buf_read_raw = some raw := deref_eq_ok hraw
  obtain ⟨hlen, hle⟩ := h raw hsome
  have hin : self.buf_read_raw_offset + bodylen ≤ self.buf_read_raw_len :=
    hlen ▸ (slice_eq_ok hbody).1
  have hmoved : Sound { self with buf_read_raw_offset := self.buf_read_raw_offset + bodylen } := by
    intro raw' hr
    exact ⟨(h raw' hr).1, hin⟩
  rcases ite_eq_iff.mp hrun with ⟨-, hrun⟩ | ⟨htwo, hrun⟩
  · cases hrun
    exact hmoved.keep rfl rfl rfl
  have hskip : self.buf_read_raw_offset + bodylen + 2 ≤ self.buf_read_raw_len := by
    rw [size_sub_of_le hin] at htwo
    omega
  rcases ite_eq_iff.mp hrun with ⟨-, hrun⟩ | ⟨-, hrun⟩
  · cases hrun
    exact sound_null rfl
  · cases hrun
    intro raw' hr
    exact ⟨(h raw' hr).1, hskip⟩

/-- `cut` is `self` with the extensions of the header parsed and a NUL in its raw buffer. -/
def CutFrom (self cut : httpp_encoding_t) : Prop :=
  ∃ items grants raw, raw.length = self.buf_read_raw_len ∧
    self.buf_read_raw_offset ≤ self.buf_read_raw_len ∧
    cut = { self with meta_read := items, grants := grants, buf_read_raw := some raw }

/-- The ways through the search for a header. -/
theorem header_rule {unset : Bytes} {self : httpp_encoding_t} {P : Int × httpp_encoding_t → Prop}
    (h : Sound self) (hnone : P (0, self)) (hfail : ∀ cut, CutFrom self cut → P (-1, cut))
    (hbody : ∀ cut offset bodylen, CutFrom self cut → offset ≤ self.buf_read_raw_len →
      Yields (enc_chunked_read_body { cut with buf_read_raw_offset := offset } bodylen) P) :
    Yields (enc_chunked_read_header unset self) P := by
  unfold enc_chunked_read_header
  refine yields_bind fun raw hraw => yields_bind fun line hline => ?_
  obtain ⟨hlen, hle⟩ := h raw (deref_eq_ok hraw)
  refine yields_ite (fun _ => yields_ok hnone) fun hend => ?_
  extract_lets rest
  have hrest (parsed : httpp_encoding_t) (hcoll : Collected self parsed) :
      Yields (rest parsed) P := by
    obtain ⟨items, grants, rfl⟩ := hcoll
    refine yields_bind fun cut hcut => yields_bind fun text _ => ?_
    have hcut_len : cut.length = self.buf_read_raw_len := by
      rw [(store_eq_ok hcut).2.2, List.length_set, hlen]
    split
    · exact yields_ok (hfail _ ⟨items, grants, cut, hcut_len, hle, rfl⟩)
    · refine hbody _ _ _ ⟨items, grants, cut, hcut_len, hle, rfl⟩ ?_
      obtain ⟨j, hj, hlt, -⟩ := scan_loop_end hend
      obtain ⟨hin, hline⟩ := slice_eq_ok hline
      have hline_len : line.length ≤ self.buf_read_raw_len - self.buf_read_raw_offset := by
        rw [hline]
        exact List.length_take_le _ _
      omega
  refine yields_ite (fun _ => ?_) fun _ => ?_
  · exact hrest self ⟨_, _, rfl⟩
  · exact yields_bind fun parsed hparsed => hrest parsed (extentions_loop_collected hparsed)

theorem CutFrom.sound {self cut : httpp_encoding_t} (h : CutFrom self cut) : Sound cut := by
  obtain ⟨items, grants, raw, hlen, hle, rfl⟩ := h
  intro raw' hr
  cases hr
  exact ⟨hlen, hle⟩

theorem CutFrom.sound_moved {self cut : httpp_encoding_t} (h : CutFrom self cut) {offset : Nat}
    (hle : offset ≤ self.buf_read_raw_len) : Sound { cut with buf_read_raw_offset := offset } := by
  obtain ⟨items, grants, raw, hlen, -, rfl⟩ := h
  intro raw' hr
  cases hr
  exact ⟨hlen, hle⟩

theorem header_sound {unset : Bytes} {self : httpp_encoding_t} (h : Sound self) :
    Yields (enc_chunked_read_header unset self) fun r => Sound r.2 :=
  header_rule h h (fun _ hcut => hcut.sound) fun _ _ _ hcut hle _ hr =>
    body_sound (hcut.sound_moved hle) hr

/-! ### The search of a call -/

/-- The decoded bytes are left alone. -/
def SameDecoded (self self' : httpp_encoding_t) : Prop :=
  self'.buf_read_decoded = self.buf_read_decoded ∧
  self'.buf_read_decoded_offset = self.buf_read_decoded_offset ∧
  self'.buf_read_decoded_len = self.buf_read_decoded_len

theorem SameDecoded.trans {x y z : httpp_encoding_t} (h : SameDecoded x y) (h' : SameDecoded y z) :
    SameDecoded x z :=
  ⟨h'.1.trans h.1, h'.2.1.trans h.2.1, h'.2.2.trans h.2.2⟩

theorem skip_search_spec (unset : Bytes) {self : httpp_encoding_t} (h : Sound self)
    (hraw : self.buf_read_raw ≠ none) :
    (∃ self', skip_search self = none ∧ enc_chunked_read_skip unset self = .ok (0, self') ∧
      Sound self' ∧
        SameDecoded self self') ∨
    ∃ raw self', skip_search self = some self' ∧
      enc_chunked_read_skip unset self = enc_chunked_read_header unset self' ∧
      self'.buf_read_raw = some raw ∧ Sound self' ∧ SameDecoded self self' := by
  obtain ⟨raw, hraw⟩ := Option.ne_none_iff_exists'.mp hraw
  obtain ⟨hlen, hle⟩ := h raw hraw
  by_cases hall : size_sub self.buf_read_raw_len self.buf_read_raw_offset =
    self.read_bytes_till_header
  · exact .inl ⟨_, if_pos hall, read_skip_all unset hall, sound_null rfl, rfl, rfl, rfl⟩
  by_cases hmore : size_sub self.buf_read_raw_len
    self.buf_read_raw_offset > self.read_bytes_till_header
  · have hskip := read_skip_past unset hmore
    have hmoved :
        Sound { self with buf_read_raw_offset := self.buf_read_raw_offset +
        self.read_bytes_till_header } := by
      intro raw' hr
      rw [size_sub_of_le hle] at hmore
      exact ⟨(h raw' hr).1, by dsimp only; omega⟩
    by_cases heof : self.bytes_till_eof = -1
    · rw [if_pos heof] at hskip
      refine .inr ⟨raw, _, ?_, hskip, hraw, hmoved.keep rfl rfl rfl, rfl, rfl, rfl⟩
      rw [skip_search_past hmore, if_pos heof]
    · rw [if_neg heof] at hskip
      refine .inl ⟨_, ?_, hskip, hmoved.keep rfl rfl rfl, rfl, rfl, rfl⟩
      rw [skip_search_past hmore, if_neg heof]
  · have hskip := read_skip_wait unset (lt_of_le_of_ne (not_lt.mp hmore) hall)
    have htill : ¬ (self.bytes_till_eof ≠ -1 ∧ self.read_bytes_till_header = 0) := by omega
    have hsearch : skip_search self = if self.bytes_till_eof = 0 then none else some self := by
      unfold skip_search
      simp only [if_neg hall, if_neg hmore, if_neg htill]
    by_cases heof : self.bytes_till_eof = 0
    · rw [if_pos heof] at hskip hsearch
      exact .inl ⟨self, hsearch, hskip, h, rfl, rfl, rfl⟩
    · rw [if_neg heof] at hskip hsearch
      exact .inr ⟨raw, self, hsearch, hskip, hraw, h, rfl, rfl, rfl⟩

variable {cb : ReadCallback σ}

/-- The raw buffer as it is before it is made longer. -/
def ready (self : httpp_encoding_t) : httpp_encoding_t :=
  if self.buf_read_raw = none then
    { self with buf_read_raw_offset := 0, buf_read_raw_len := 0 }
  else
    self

theorem ready_count {self : httpp_encoding_t} (h : Sound self) :
    ((ready self).buf_read_raw.getD []).length = (ready self).buf_read_raw_len ∧
      (ready self).buf_read_raw_offset ≤ (ready self).buf_read_raw_len := by
  unfold ready
  split_ifs with hnull
  · simp [hnull]
  · obtain ⟨raw, hraw⟩ := Option.ne_none_iff_exists'.mp hnull
    simpa [hraw] using h raw hraw

theorem ready_same (self : httpp_encoding_t) : SameDecoded self (ready self) := by
  unfold ready
  split_ifs <;> exact ⟨rfl, rfl, rfl⟩

theorem grown_sound {self : httpp_encoding_t} (h : Sound self) (grants : Grants)
    {room : Bytes} {n : Nat} (hroom : (room.take n).length = n) :
    Sound { ready self with
            buf_read_raw := some (((ready self).buf_read_raw.getD []).take
              (ready self).buf_read_raw_len ++ room.take n)
            buf_read_raw_len := (ready self).buf_read_raw_len + n, grants := grants } := by
  obtain ⟨hcount, hle⟩ := ready_count h
  intro raw hraw
  cases hraw
  refine ⟨?_, Nat.le_add_right_of_le hle⟩
  rw [List.length_append, List.length_take, hroom]
  show _ = (ready self).buf_read_raw_len + _
  omega

theorem ungrown_sound {self : httpp_encoding_t} (h : Sound self) (grants : Grants) :
    Sound { ready self with
            buf_read_raw := if (ready self).buf_read_raw_len = 0 then none
              else some (((ready self).buf_read_raw.getD []).take (ready self).buf_read_raw_len)
            grants := grants } := by
  obtain ⟨hcount, hle⟩ := ready_count h
  intro raw hraw
  change (if (ready self).buf_read_raw_len = 0 then none else _) = some raw at hraw
  split_ifs at hraw
  cases hraw
  refine ⟨?_, hle⟩
  show (((ready self).buf_read_raw.getD []).take (ready self).buf_read_raw_len).length =
    (ready self).buf_read_raw_len
  rw [List.length_take]
  omega

/-- A call that passes on a body reads nothing for the raw buffer. -/
theorem body_search (hcb : Answers cb) {self : httpp_encoding_t} (h : Sound self)
    (hbody : self.read_bytes_till_header > 2) (len : Nat) (userdata : σ) :
    ∃ r, chunked_search self cb userdata = none ∧
      enc_chunked_read self len (some cb) userdata = .ok r ∧
      Sound r.2.2.1 ∧ SameDecoded self r.2.2.1 := by
  have hnone : chunked_search self cb userdata = none := if_pos hbody
  unfold enc_chunked_read
  simp only [if_pos hbody, hcb.receive, ok_bind, pure_eq_ok]
  split_ifs
  · exact ⟨_, hnone, rfl, h, rfl, rfl, rfl⟩
  · exact ⟨_, hnone, rfl, h, rfl, rfl, rfl⟩
  · exact ⟨_, hnone, rfl, h.keep rfl rfl rfl, rfl, rfl, rfl⟩
  · exact ⟨_, hnone, rfl, h.keep rfl rfl rfl, rfl, rfl, rfl⟩

theorem chunked_search_spec (hcb : Answers cb) {self : httpp_encoding_t}
    (h : Sound self) (len : Nat) (userdata : σ) :
    (∃ r, chunked_search self cb userdata = none ∧
      enc_chunked_read self len (some cb) userdata = .ok r ∧
      Sound r.2.2.1 ∧ SameDecoded self r.2.2.1) ∨
    ∃ raw self' userdata' unset, chunked_search self cb userdata = some self' ∧
      self'.buf_read_raw = some raw ∧
      Sound self' ∧ SameDecoded self self' ∧ enc_chunked_read self len (some cb) userdata =
        (do let (ret, self) ← enc_chunked_read_header unset self'; return (ret, [], self,
        userdata')) := by
  by_cases hbody : self.read_bytes_till_header > 2
  · exact .inl (body_search hcb h hbody len userdata)
  have hready : (if self.buf_read_raw = none then
      { self with buf_read_raw_offset := 0, buf_read_raw_len := 0 } else self) = ready self := rfl
  unfold chunked_search enc_chunked_read
  simp only [if_neg hbody, hready]
  generalize hbuflen : (if self.bytes_till_eof ≠ -1 then self.bytes_till_eof.toNat else 1024) =
    buflen
  have hsame := ready_same self
  by_cases hgrant : (malloc (ready self).grants .read_raw
    ((ready self).buf_read_raw_len + buflen)).1 = true
  · simp only [hgrant, not_true, if_false, false_or, slice_front (ready_count h).1.ge,
      hcb.receive, ok_bind]
    by_cases hret : (cb userdata buflen).1.1 < 1
    · left
      simp only [if_pos hret, pure_eq_ok]
      exact ⟨_, trivial, rfl, ungrown_sound h _, hsame⟩
    · simp only [if_neg hret]
      have hgrown := grown_sound h
        (malloc (ready self).grants .read_raw ((ready self).buf_read_raw_len + buflen)).2
        (hcb.count userdata buflen (List.replicate (buflen - (cb userdata buflen).1.2.length) 0))
      generalize (cb userdata buflen).1.2 ++
        List.replicate (buflen - (cb userdata buflen).1.2.length) (0 : Byte) = room
        at hgrown ⊢
      rcases skip_search_spec (room.drop (cb userdata buflen).1.1.toNat) hgrown (by simp) with
        ⟨self', hnone, hrun, hs', hkept⟩ | ⟨raw, self', hsome, hrun, hraw, hs', hkept⟩
      · left
        refine ⟨(0, [], self', (cb userdata buflen).2), hnone, ?_, hs', hsame.trans hkept⟩
        rw [hrun]
        rfl
      · right
        refine ⟨raw, self', (cb userdata buflen).2, room.drop (cb userdata buflen).1.1.toNat, hsome,
          hraw, hs', hsame.trans hkept, ?_⟩
        rw [hrun]
  · left
    simp only [hgrant, true_or, if_true, not_false_eq_true, pure_eq_ok, Bool.false_eq_true]
    refine ⟨_, trivial, rfl, ?_, hsame⟩
    intro raw hraw
    have hcount := ready_count h
    rw [show (ready self).buf_read_raw = some raw from hraw, Option.getD_some] at hcount
    exact hcount

theorem copy_decoded_sound {self self' : httpp_encoding_t} {len : Nat} {ret : Int} {data : Bytes}
    (h : Sound self) (hrun : copy_decoded self len = .ok (ret, data, self')) : Sound self' := by
  unfold copy_decoded at hrun
  obtain ⟨_, -, hrun⟩ := bind_eq_ok.mp hrun
  cases hrun
  exact h.keep rfl rfl rfl

theorem read_search_header (hcb : Answers cb) {self found : httpp_encoding_t} (h : Sound self)
    {len : Nat} {userdata : σ} (hsearch : read_search self len cb userdata = some found) :
    ∃ n copied rest raw userdata' unset, len ≠ 0 ∧ copy_decoded self len = .ok (n, copied, rest) ∧
      n ≠ ssize len ∧
      rest.process = .chunked ∧ chunked_search rest cb userdata = some found ∧
      found.buf_read_raw = some raw ∧ Sound found ∧ SameDecoded rest found ∧
      enc_chunked_read rest (if n > 0 then size_sub len n.toNat else len) (some cb) userdata =
        (do let (ret, self) ← enc_chunked_read_header unset found; return (ret, [], self,
        userdata')) := by
  unfold read_search at hsearch
  split_ifs at hsearch with hzero
  split at hsearch
  · exact absurd hsearch (by simp)
  · next n copied rest hcopy =>
    split_ifs at hsearch with hstop
    rw [not_or] at hstop
    have hprocess : rest.process = .chunked := by
      cases hp : rest.process with
      | identity => exact absurd hp hstop.2
      | chunked => rfl
    rcases chunked_search_spec hcb (copy_decoded_sound h hcopy) (if n > 0 then size_sub len n.toNat
      else len) userdata with
      ⟨r, hnone, -⟩ | ⟨raw, found', userdata', unset, hsome, hraw, hs, hsame, hheader⟩
    · rw [hnone] at hsearch
      exact absurd hsearch (by simp)
    · rw [hsome] at hsearch
      cases hsearch
      exact ⟨n, copied, rest, raw, userdata', unset, hzero, hcopy, hstop.1, hprocess, hsome, hraw,
        hs, hsame, hheader⟩

/-- A call for which the decoded bytes are not enough: what the handler returned, and what was
copied after it. -/
theorem read_handled {self rest : httpp_encoding_t} {len : Nat} {n : Int} {copied : Bytes}
    (hzero : len ≠ 0) (hcopy : copy_decoded self len = .ok (n, copied, rest))
    (hless : n ≠ ssize len) (cb : Option (ReadCallback σ)) (userdata : σ) :
    Yields (httpp_encoding_read self len cb userdata) fun r =>
      ∃ ret data enc userdata',
        process_read rest (if n > 0 then size_sub len n.toNat else len) cb userdata =
        .ok (ret, data, enc, userdata') ∧
        ((ret = -1 ∧ r.2 = (copied, enc, userdata')) ∨
          (ret ≠ -1 ∧ ∃ more enc', r.2 =
              ((copied ++ data).take ((if n > 0 then n else 0) + ret).toNat ++ more,
              enc', userdata') ∧
            ((more = [] ∧ enc' = enc) ∨ ∃ len' m block,
            copy_decoded enc len' = .ok (m, block, enc') ∧
              more = if m > 0 then block else []))) := by
  unfold httpp_encoding_read
  rw [if_neg hzero, hcopy, ok_bind]
  refine yields_ite (fun hall => absurd hall hless) fun _ => ?_
  refine yields_bind fun handled hhandled => ?_
  obtain ⟨ret, data, enc, userdata'⟩ := handled
  refine yields_ite (fun hfail => ?_) fun _ => ?_
  · exact yields_ok ⟨ret, data, enc, userdata', hhandled, .inl ⟨hfail.1, rfl⟩⟩
  refine yields_ite (fun hfail => ?_) fun hret => ?_
  · exact yields_ok ⟨ret, data, enc, userdata', hhandled, .inl ⟨hfail, rfl⟩⟩
  refine yields_ite (fun _ => ?_) fun _ => ?_
  · refine yields_ok ⟨ret, data, enc, userdata', hhandled,
      .inr ⟨hret, [], enc, ?_, .inl ⟨rfl, rfl⟩⟩⟩
    rw [List.append_nil]
  refine yields_bind fun again hagain => ?_
  obtain ⟨m, block, enc'⟩ := again
  refine yields_ite (fun _ => yields_error _) fun _ => ?_
  refine yields_ite (fun hm => ?_) fun hm => ?_
  · exact yields_ok ⟨ret, data, enc, userdata', hhandled,
      .inr ⟨hret, block, enc', rfl, .inr ⟨_, m, block, hagain, (if_pos hm).symm⟩⟩⟩
  · refine yields_ok ⟨ret, data, enc, userdata', hhandled,
      .inr ⟨hret, [], enc', ?_, .inr ⟨_, m, block, hagain, (if_neg hm).symm⟩⟩⟩
    rw [List.append_nil]

/-- What copying and every handler keep, a call keeps. -/
theorem read_keeps {Inv : httpp_encoding_t → Prop} {cb : Option (ReadCallback σ)} {userdata : σ}
    (hcopy : ∀ self len, Inv self → Yields (copy_decoded self len) fun r => Inv r.2.2)
    (hprocess : ∀ self len, Inv self →
      Yields (process_read self len cb userdata) fun r => Inv r.2.2.1)
    {self : httpp_encoding_t} (h : Inv self) (len : Nat) :
    Yields (httpp_encoding_read self len cb userdata) fun r => Inv r.2.2.1 := by
  unfold httpp_encoding_read
  refine yields_ite (fun _ => yields_ok h) fun _ => ?_
  refine (hcopy self len h).bind ?_
  rintro ⟨ret, copied, self⟩ h
  refine yields_ite (fun _ => yields_ok h) fun _ => ?_
  refine (hprocess self _ h).bind ?_
  rintro ⟨ret, data, self, userdata⟩ h
  refine yields_ite (fun _ => yields_ok h) fun _ => ?_
  refine yields_ite (fun _ => yields_ok h) fun _ => ?_
  refine yields_ite (fun _ => yields_ok h) fun _ => ?_
  refine (hcopy self _ h).bind ?_
  rintro ⟨ret, copied, self⟩ h
  refine yields_ite (fun _ => yields_error _) fun _ => ?_
  refine yields_ite (fun _ => yields_ok h) fun _ => ?_
  exact yields_ok h

theorem process_read_sound {cb : Option (ReadCallback σ)} (hcb : ∀ f ∈ cb, Answers f)
    (self : httpp_encoding_t) (len : Nat) (userdata : σ) (h : Sound self) :
    Yields (process_read self len cb userdata) fun r => Sound r.2.2.1 := by
  unfold process_read
  cases cb with
  | none => cases self.process <;> exact yields_ok h
  | some f =>
    have hf : Answers f := hcb f rfl
    split
    · unfold enc_identity_read
      exact yields_bind fun _ _ => yields_ok h
    · rcases chunked_search_spec hf h len userdata with
        ⟨r, -, hr, hs, -⟩ | ⟨raw, found, user, unset, -, -, hs, -, hheader⟩
      · rw [hr]
        exact yields_ok hs
      · rw [hheader]
        exact (header_sound hs).bind fun r hr => yields_ok hr

theorem read_sound {cb : Option (ReadCallback σ)} (hcb : ∀ f ∈ cb, Answers f)
    {self : httpp_encoding_t} (h : Sound self) (len : Nat) (userdata : σ) :
    Yields (httpp_encoding_read self len cb userdata) fun r => Sound r.2.2.1 :=
  read_keeps (fun _ _ h _ hr => copy_decoded_sound h hr) (fun self len h =>
    process_read_sound hcb self len userdata h)
    h len

theorem read_search_within (hcb : Answers cb) {self found : httpp_encoding_t} {len : Nat}
    {userdata : σ} (h : Sound self) (hsearch : read_search self len cb userdata = some found) :
    Within found ↔ ¬ BareLF found := by
  obtain ⟨_, _, _, raw, _, _, -, -, -, -, -, hraw, hs, -⟩ := read_search_header hcb h hsearch
  exact within_iff hraw hs

/-! ## Runs -/

/-- A call with room for `len` bytes, whatever becomes of them. -/
def any_read (cb : ReadCallback σ) (x : httpp_encoding_t × σ) (len : Nat) :
    C (httpp_encoding_t × σ) := do
  let (_, _, enc, userdata) ← httpp_encoding_read x.1 len (some cb) x.2
  return (enc, userdata)

/-- One of the calls looks for a header in this state. -/
def Searches (cb : ReadCallback σ) (x : httpp_encoding_t × σ) (lens : List Nat)
    (found : httpp_encoding_t) : Prop :=
  ∃ pre len post x', lens = pre ++ len :: post ∧ pre.foldlM (any_read cb) x = .ok x' ∧
    read_search x'.1 len cb x'.2 = some found

theorem any_reads_sound (hcb : Answers cb) {x x' : httpp_encoding_t × σ} {lens : List Nat}
    (h : Sound x.1) (hrun : lens.foldlM (any_read cb) x = .ok x') : Sound x'.1 := by
  induction lens generalizing x with
  | nil =>
    cases hrun
    exact h
  | cons len lens ih =>
    rw [List.foldlM_cons] at hrun
    obtain ⟨y, hy, hrun⟩ := bind_eq_ok.mp hrun
    refine ih ?_ hrun
    obtain ⟨⟨ret, data, enc, user⟩, hread, hy⟩ := bind_eq_ok.mp hy
    cases hy
    exact read_sound (fun f hf => Option.mem_some.mp hf ▸ hcb) h _ _ _ hread

/-- **Indices.** A run stays inside the unread bytes of its raw buffer exactly when it never looks
for a header at the front of the buffer and finds an LF there. -/
theorem reads_within_iff (hcb : Answers cb) {grants : Grants} {enc : httpp_encoding_t}
    (hnew : Fresh grants enc) (s : σ) (lens : List Nat) :
    (∀ found, Searches cb (enc, s) lens found → Within found) ↔
      ∀ found, Searches cb (enc, s) lens found → ¬ BareLF found := by
  have hstart : Sound enc := by
    rw [hnew.eq]
    exact sound_null rfl
  refine forall₂_congr fun found hfound => ?_
  obtain ⟨pre, len, post, x, -, hpre, hsearch⟩ := hfound
  exact read_search_within hcb (any_reads_sound hcb hstart hpre) hsearch

/-- A single LF on the network. -/
def bare_line : Network := { rest := [LF], sizes := [] }

/-- The NUL goes to the index before the buffer. -/
theorem reads_not_within :
    ¬ ∀ (cb : ReadCallback Network) (grants : Grants) (enc : httpp_encoding_t)
      (s : Network) (lens : List Nat), Answers cb → Fresh grants enc →
        ∀ found, Searches cb (enc, s) lens found → Within found := by
  intro h
  have hfound :
    ∃ found, Searches Network.recv (chunked_encoding fun _ _ _ => true, bare_line) [16] found ∧
      BareLF found := by
    refine ⟨_, ⟨[], 16, [], _, rfl, rfl, rfl⟩, rfl, ?_⟩
    decide
  obtain ⟨found, hsearch, hzero, hhead⟩ := hfound
  have hCR :=
    (h _ _ _ _ _ Network.recv_fragments.feeds.answers (fresh_chunked rfl) found hsearch).CR
  obtain ⟨l, hl⟩ : ∃ l, window found = LF :: l := List.head?_eq_some_iff.mp hhead
  rw [hzero, hl, scan_loop_bare] at hCR
  exact absurd (hCR (by decide)) (by decide)

/-- The parser of the extension looks behind what has come in, and a later fragment is
an LF alone. -/
theorem reads_within_iff_extension :
    let x := (chunked_encoding fun _ _ _ => true,
      ({ rest := ascii "5;a=bb\r\nhello\r\n\n", sizes := [8, 5, 2] } : Network))
    let lens := [16, 16, 16, 16, 16]
    (∀ found, Searches Network.recv x lens found → Within found) ↔
      ∀ found, Searches Network.recv x lens found → ¬ BareLF found :=
  reads_within_iff Network.recv_fragments.feeds.answers (fresh_chunked rfl) _ _

end Encoding
