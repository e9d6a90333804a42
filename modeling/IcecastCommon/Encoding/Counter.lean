import IcecastCommon.Encoding.Sizes

/-!
# How many bytes are taken for a body

`read_bytes_till_header` counts down to the next header. It is a `size_t`, and the two bytes behind
a body are counted too, so that the largest sizes wrap around.
-/

namespace Encoding

open Lib

variable {σ : Type}

/-! ## What is left of a body -/

/-- The number of bytes that are left to copy. -/
def block_left (src : Option Bytes) (boffset blen : Nat) : Nat :=
  if src = none then 0 else blen - boffset

theorem copy_buffer_left {src : Option Bytes} {boffset blen : Nat}
    (hle : src ≠ none → boffset ≤ blen) (len : Nat) :
    Yields (copy_buffer src boffset blen len) fun r =>
      r.2.1.length + block_left r.2.2.1 r.2.2.2.1 r.2.2.2.2 = block_left src boffset blen ∧
      (if r.1 > 0 then r.1 else 0) = r.2.1.length := by
  unfold copy_buffer
  by_cases hzero : len = 0
  · rw [if_pos hzero]
    exact yields_ok ⟨Nat.zero_add _, rfl⟩
  rw [if_neg hzero]
  cases src with
  | none => exact yields_ok ⟨rfl, rfl⟩
  | some block =>
    simp only [size_sub_of_le (hle (by simp))]
    generalize htodo : (if len < blen - boffset then len else blen - boffset) = todo
    have hmost : todo ≤ blen - boffset := by
      split_ifs at htodo <;> omega
    refine yields_bind fun p hp => ?_
    obtain ⟨hin, rfl⟩ := slice_eq_ok hp
    have hlen : ((block.drop boffset).take todo).length = todo := by
      rw [List.length_take, List.length_drop]
      omega
    have hret :
        (if (todo : Int) > 0 then (todo : Int) else 0) =
        ((block.drop boffset).take todo).length := by
      rw [hlen]
      split_ifs <;> omega
    refine yields_ite (fun hall => yields_ok ⟨?_, hret⟩) fun _ => yields_ok ⟨?_, hret⟩
    · simp only [block_left, hlen, if_true, reduceCtorEq, if_false]
      omega
    · simp only [block_left, hlen, reduceCtorEq, if_false]
      omega

/-- The number of decoded bytes that were not delivered yet. -/
def decoded_left (enc : httpp_encoding_t) : Nat :=
  block_left enc.buf_read_decoded enc.buf_read_decoded_offset enc.buf_read_decoded_len

/-- The number of bytes that will be delivered before the decoder looks for a header. -/
def body_left (enc : httpp_encoding_t) : Nat := decoded_left enc + (enc.read_bytes_till_header - 2)

theorem decoded_left_none {enc : httpp_encoding_t} (h : enc.buf_read_decoded = none) :
    decoded_left enc = 0 := if_pos h

theorem copy_decoded_left {self : httpp_encoding_t} (h : Settled self) (len : Nat) :
    Yields (copy_decoded self len) fun r =>
      r.2.1.length + decoded_left r.2.2 = decoded_left self ∧
      (if r.1 > 0 then r.1 else 0) = r.2.1.length ∧
      r.2.2.read_bytes_till_header = self.read_bytes_till_header :=
  (copy_buffer_left h len).bind fun _ hr => yields_ok ⟨hr.1, hr.2, rfl⟩

/-! ## One call -/

/-- The handler returned some bytes, or failed, and `total` bytes of the body were left before. -/
def Hands (total : Nat) (r : Int × Bytes × httpp_encoding_t × σ) : Prop :=
  Settled r.2.2.1 ∧
  ((r.1 = -1 ∧ body_left r.2.2.1 = total) ∨ ∃ k : Nat, r.1 = k ∧ k ≤ r.2.1.length ∧
    k + body_left r.2.2.1 = total)

theorem read_counts {self rest : httpp_encoding_t} (h : Settled self) {len : Nat}
    (hlen : len < 2 ^ 63) {n : Int} {copied : Bytes} (hzero : len ≠ 0)
    (hcopy : copy_decoded self len = .ok (n, copied, rest)) (hless : n ≠ ssize len)
    {cb : Option (ReadCallback σ)} {userdata : σ} {total : Nat}
    (hhands : Yields (process_read rest (if n > 0 then size_sub len n.toNat else len) cb userdata)
      (Hands total)) :
    Yields (httpp_encoding_read self len cb userdata) fun r =>
      r.2.1.length + body_left r.2.2.1 = decoded_left self + total ∧
      ∃ handled, process_read rest (if n > 0 then size_sub len n.toNat else len) cb userdata =
      .ok handled ∧
        r.2.2.1.read_bytes_till_header = handled.2.2.1.read_bytes_till_header ∧
        r.2.2.1.process = handled.2.2.1.process := by
  obtain ⟨hcopied, hn, -⟩ := copy_decoded_left h len _ hcopy
  obtain ⟨-, -, hnone⟩ := copy_decoded_settled self len h _ hcopy
  dsimp only at hcopied hn
  rw [decoded_left_none (hnone hlen hless), Nat.add_zero] at hcopied
  intro r hread
  obtain ⟨ret, data, enc, userdata', hrun, hcase⟩ :=
    read_handled hzero hcopy hless cb userdata r hread
  obtain ⟨hsettled, hresult⟩ := hhands _ hrun
  rcases hcase with ⟨hret, hr⟩ | ⟨hret, more, enc', hr, hmore⟩
  · have hleft : body_left enc = total := by
      rcases hresult with ⟨-, hleft⟩ | ⟨k, hk, -⟩
      · exact hleft
      · dsimp only at hk
        omega
    rw [hr]
    refine ⟨?_, _, hrun, rfl, rfl⟩
    dsimp only
    omega
  · obtain ⟨k, hk, hdata, hleft⟩ := hresult.resolve_left fun hfail => hret hfail.1
    dsimp only at hk hdata hleft
    have hfront : ((copied ++ data).take ((if n > 0 then n else 0) + ret).toNat).length =
        copied.length + k := by
      rw [hn, hk, List.length_take, List.length_append]
      omega
    have hagain : more.length + decoded_left enc' = decoded_left enc ∧
        enc'.read_bytes_till_header = enc.read_bytes_till_header ∧ enc'.process = enc.process := by
      rcases hmore with ⟨rfl, rfl⟩ | ⟨len', m, block, hcopy', rfl⟩
      · exact ⟨Nat.zero_add _, rfl, rfl⟩
      · obtain ⟨hblock, hm, htill⟩ := copy_decoded_left hsettled len' _ hcopy'
        obtain ⟨-, hprocess, -⟩ := copy_decoded_settled enc len' hsettled _ hcopy'
        refine ⟨?_, htill, hprocess⟩
        dsimp only at hblock hm
        split_ifs at hm ⊢ with hpos
        · exact hblock
        · have hempty : block.length = 0 := by omega
          rw [← hblock, hempty]
          rfl
    obtain ⟨hsum, htill, hprocess⟩ := hagain
    rw [hr]
    refine ⟨?_, _, hrun, htill, hprocess⟩
    rw [List.length_append, hfront]
    dsimp only
    unfold body_left at hleft ⊢
    rw [htill]
    omega

theorem direct_counts {f : ReadCallback σ} (hf : Answers f) {self : httpp_encoding_t}
    (h : Settled self) (hbody : self.read_bytes_till_header > 2) (len : Nat) (userdata : σ) :
    Yields (enc_chunked_read self len (some f) userdata) fun r =>
      Hands (body_left self) r ∧ r.2.2.1.process = self.process := by
  unfold enc_chunked_read
  dsimp only
  rw [if_pos hbody]
  generalize htodo : (if len > self.read_bytes_till_header - 2 then self.read_bytes_till_header - 2
    else len) = todo
  have hmost : todo ≤ self.read_bytes_till_header - 2 := by
    split_ifs at htodo <;> omega
  have hwithin := hf.within userdata todo
  rw [hf.receive, ok_bind]
  refine yields_ite (fun (hret : (f userdata todo).1.1 < 1) => yields_ok ⟨⟨h, ?_⟩, rfl⟩)
    fun (hret : ¬ (f userdata todo).1.1 < 1) => yields_ok ⟨⟨h, .inr ?_⟩, rfl⟩
  · rcases hf.step userdata todo with (hzero | hfail) | ⟨hpos, -⟩
    · exact .inr ⟨0, hzero, Nat.zero_le _, Nat.zero_add _⟩
    · exact .inl ⟨hfail, rfl⟩
    · omega
  · have hfits := hf.fits userdata todo
    have hnat : (f userdata todo).1.1 = ((f userdata todo).1.1.toNat : Nat) := by omega
    refine ⟨(f userdata todo).1.1.toNat, hnat, hfits, ?_⟩
    show _ + (decoded_left self +
      (size_sub self.read_bytes_till_header (f userdata todo).1.1.toNat - 2)) =
      decoded_left self + (self.read_bytes_till_header - 2)
    rw [size_sub_of_le (by omega)]
    omega

/-- A call, with the number of bytes that were delivered so far. -/
def ReadCall.count (x : (httpp_encoding_t × σ) × Nat) (c : ReadCall σ) :
    C ((httpp_encoding_t × σ) × Nat) := do
  let (_, data, enc, userdata) ← httpp_encoding_read x.1.1 c.len c.cb x.1.2
  return ((enc, userdata), x.2 + data.length)

/-- The call fills the raw buffer to find the next header in it: the decoded bytes are not enough,
and nothing of a body is to come. -/
def ReadCall.Seeks (enc : httpp_encoding_t) (c : ReadCall σ) : Prop :=
  c.cb ≠ none ∧ c.len ≠ 0 ∧ ∃ n copied rest, copy_decoded enc c.len = .ok (n, copied, rest) ∧
    n ≠ ssize c.len ∧ rest.read_bytes_till_header ≤ 2

/-- What was delivered and what is left of the body make up `total`. -/
structure Counted (total : Nat) (x : (httpp_encoding_t × σ) × Nat) : Prop where
  reading : Reading x.1.1
  chunked : x.1.1.process = .chunked
  sum : x.2 + body_left x.1.1 = total

theorem body_read_counts {enc : httpp_encoding_t} {c : ReadCall σ} (hc : c.Answers)
    (h : Reading enc) (hchunked : enc.process = .chunked) (hbody : ¬ c.Seeks enc) (userdata : σ) :
    Yields (httpp_encoding_read enc c.len c.cb userdata) fun r =>
      r.2.1.length + body_left r.2.2.1 = body_left enc ∧ r.2.2.1.process = .chunked := by
  by_cases hzero : c.len = 0
  · unfold httpp_encoding_read
    rw [if_pos hzero]
    exact yields_ok ⟨Nat.zero_add _, hchunked⟩
  cases hcopy : copy_decoded enc c.len with
  | error e =>
    unfold httpp_encoding_read
    rw [if_neg hzero, hcopy]
    exact yields_error e
  | ok r =>
    obtain ⟨n, copied, rest⟩ := r
    obtain ⟨hcopied, -, htill⟩ := copy_decoded_left h.settled c.len _ hcopy
    obtain ⟨hsettled, hprocess, hnone⟩ := copy_decoded_settled enc c.len h.settled _ hcopy
    dsimp only at hcopied htill hsettled hprocess hnone
    rw [hchunked] at hprocess
    by_cases hall : n = ssize c.len
    · unfold httpp_encoding_read
      rw [if_neg hzero, hcopy, ok_bind]
      refine yields_ite (fun _ => yields_ok ⟨?_, hprocess⟩) fun hless => absurd hall hless
      dsimp only
      unfold body_left
      rw [htill]
      omega
    · have hhandler :
        Yields (process_read rest (if n > 0 then size_sub c.len n.toNat else c.len) c.cb userdata)
          fun r => Hands (body_left rest) r ∧ r.2.2.1.process = .chunked := by
        rw [process_read_chunked hprocess]
        cases hcb : c.cb with
        | none => exact yields_ok ⟨⟨hsettled, .inl ⟨rfl, rfl⟩⟩, hprocess⟩
        | some f =>
          have htwo : rest.read_bytes_till_header > 2 := by
            by_contra hfew
            exact hbody ⟨by simp [hcb], hzero, n, copied, rest, hcopy, hall, not_lt.mp hfew⟩
          intro r hr
          obtain ⟨hhands, hsame⟩ := direct_counts (hc f hcb) hsettled htwo _ userdata r hr
          exact ⟨hhands, hsame.trans hprocess⟩
      intro r hr
      obtain ⟨hdelivered, handled, hrun, -, hsame⟩ :=
        read_counts h.settled c.fits hzero hcopy hall (fun r hr => (hhandler r hr).1) r hr
      refine ⟨?_, hsame.trans (hhandler _ hrun).2⟩
      rw [hdelivered]
      unfold body_left
      rw [decoded_left_none (hnone c.fits hall), htill, Nat.zero_add]

theorem call_counts {total : Nat} {x : (httpp_encoding_t × σ) × Nat} {c : ReadCall σ}
    (hc : c.Answers) (h : Counted total x) (hbody : ¬ c.Seeks x.1.1) :
    Yields (ReadCall.count x c) (Counted total) := by
  intro y hy
  obtain ⟨⟨ret, data, enc, userdata⟩, hr, hy⟩ := bind_eq_ok.mp hy
  cases hy
  obtain ⟨hleft, hprocess⟩ := body_read_counts hc h.reading h.chunked hbody x.1.2 _ hr
  refine ⟨read_reading hc h.reading c.len x.1.2 _ hr, hprocess, ?_⟩
  have hsum := h.sum
  dsimp only at hleft ⊢
  omega

/-! ## The header -/

theorem size_sub_exact {size b : Nat} (hlt : size < 2 ^ 64) (hb : b ≤ size) :
    size_sub ((size + 2) % 2 ^ 64) b = size + 2 - b ↔ size + 2 < 2 ^ 64 + b := by
  unfold size_sub
  by_cases hsmall : size + 2 < 2 ^ 64
  · rw [Nat.mod_eq_of_lt hsmall, if_pos (by omega)]
    omega
  · rw [show (size + 2) % 2 ^ 64 = size + 2 - 2 ^ 64 by omega]
    split_ifs <;> omega

/-- The two cases in which the buffer holds no more than the body. -/
theorem body_counter (self : httpp_encoding_t) {raw : Bytes} (hraw : self.buf_read_raw = some raw)
    (hle : self.buf_read_raw_offset ≤ self.buf_read_raw_len)
    (hnone : self.buf_read_decoded = none) {size : Nat}
    (hpart : self.buf_read_raw_len - self.buf_read_raw_offset ≤ size) :
    Yields (enc_chunked_read_body self size) fun r =>
      r.1 = 0 ∧ r.2.process = self.process ∧ Settled r.2 ∧
      decoded_left r.2 = self.buf_read_raw_len - self.buf_read_raw_offset ∧
      r.2.read_bytes_till_header =
        size_sub ((size + 2) % 2 ^ 64) (self.buf_read_raw_len - self.buf_read_raw_offset) := by
  by_cases hempty : self.buf_read_raw_offset = self.buf_read_raw_len
  · have hzero : self.buf_read_raw_len - self.buf_read_raw_offset = 0 := by omega
    rw [read_body_empty hempty]
    refine yields_ok ⟨rfl, rfl, fun hsome => absurd hnone hsome, ?_, ?_⟩
    · rw [hzero]
      exact decoded_left_none hnone
    · rw [hzero, size_sub_of_le (Nat.zero_le _)]
      rfl
  · rw [read_body_part hempty (size_sub_of_le hle) hpart]
    refine yields_ok ⟨rfl, rfl, fun _ => hle, ?_, rfl⟩
    unfold decoded_left
    dsimp only
    rw [hraw]
    exact if_neg (by simp)

theorem Announces.unique {found : httpp_encoding_t} {size size' : Nat} (h : Announces found size)
    (h' : Announces found size') : size = size' := by
  obtain ⟨-, raw, text, hcut, htext, hsize⟩ := h
  obtain ⟨-, raw', text', hcut', htext', hsize'⟩ := h'
  obtain rfl := Except.ok.inj (hcut.symm.trans hcut')
  obtain rfl := Except.ok.inj (htext.symm.trans htext')
  exact Option.some.inj (hsize.symm.trans hsize')

theorem Announces.lt {found : httpp_encoding_t} {size : Nat} (h : Announces found size) :
    size < 2 ^ 64 := by
  obtain ⟨-, raw, text, -, -, hsize⟩ := h
  exact sscanf_llx_lt hsize

theorem body_offset_le {found : httpp_encoding_t} {raw : Bytes}
    (hraw : found.buf_read_raw = some raw) (hs : Sound found)
    (hfound : (scan_loop {} found.buf_read_raw_offset (window found)).offset_LF ≠ -1) :
    body_offset found ≤ found.buf_read_raw_len := by
  have hlen := window_length hraw hs
  obtain ⟨j, hj, hlt, -⟩ := scan_loop_end hfound
  unfold body_offset
  omega

theorem header_counter {unset : Bytes} {found : httpp_encoding_t} {raw : Bytes}
    (hraw : found.buf_read_raw = some raw) (hs : Sound found)
    (hnone : found.buf_read_decoded = none) {size : Nat} (hsize : Announces found size)
    (hpart : buffered found ≤ size) :
    Yields (enc_chunked_read_header unset found) fun r =>
      r.1 = 0 ∧ r.2.process = found.process ∧ Settled r.2 ∧ decoded_left r.2 = buffered found ∧
      r.2.read_bytes_till_header = size_sub ((size + 2) % 2 ^ 64) (buffered found) := by
  intro r hr
  rcases header_number hraw hs hsize.1 r hr with ⟨hno, -⟩ | ⟨size', cut, hsize', hcut, -, hbody⟩
  · exact absurd hsize (hno.not_announces size)
  · obtain rfl := hsize.unique hsize'
    obtain ⟨items, grants, raw', -, -, rfl⟩ := hcut
    exact body_counter
      { found with meta_read := items, grants := grants, buf_read_raw := some raw',
                   buf_read_raw_offset := body_offset found }
      rfl (body_offset_le hraw hs hsize.1) hnone hpart r hbody

theorem handler_counter {rest found : httpp_encoding_t} {raw unset : Bytes}
    (hprocess : rest.process = .chunked) (hraw : found.buf_read_raw = some raw) (hs : Sound found)
    (hnone : found.buf_read_decoded = none) {size : Nat} (hsize : Announces found size)
    (hpart : buffered found ≤ size) {len : Nat} {f : ReadCallback σ} {userdata user : σ}
    (hheader : enc_chunked_read rest len (some f) userdata =
      do let (ret, self) ← enc_chunked_read_header unset found; return (ret, [], self, user)) :
    Yields (process_read rest len (some f) userdata) fun r =>
      Hands (buffered found + (size_sub ((size + 2) % 2 ^ 64) (buffered found) - 2)) r ∧
      r.2.2.1.process = found.process ∧
      r.2.2.1.read_bytes_till_header = size_sub ((size + 2) % 2 ^ 64) (buffered found) := by
  rw [process_read_chunked hprocess, hheader]
  refine (header_counter hraw hs hnone hsize hpart).bind ?_
  rintro ⟨ret, enc⟩ ⟨hret, hsame, hsettled, hdecoded, htill⟩
  refine yields_ok ⟨⟨hsettled, .inr ⟨0, hret, Nat.zero_le _, ?_⟩⟩, hsame, htill⟩
  dsimp only at hdecoded htill ⊢
  unfold body_left
  rw [hdecoded, htill, Nat.zero_add]

/-! ## Runs -/

/-- Calls that do not look for a header. -/
inductive BodyRun : (httpp_encoding_t × σ) × Nat → (httpp_encoding_t × σ) × Nat → Prop
  | refl (x) : BodyRun x x
  | call {x y z} {c : ReadCall σ} (answers : c.Answers) (body : ¬ c.Seeks x.1.1)
      (call : ReadCall.count x c = .ok y) (rest : BodyRun y z) : BodyRun x z

theorem BodyRun.counted {total : Nat} {x z : (httpp_encoding_t × σ) × Nat} (hrun : BodyRun x z)
    (h : Counted total x) : Counted total z := by
  induction hrun with
  | refl => exact h
  | call answers body call _ ih => exact ih (call_counts answers h body _ call)

theorem Counted.sought {total : Nat} {z : (httpp_encoding_t × σ) × Nat} (h : Counted total z)
    {c : ReadCall σ} (hseeks : c.Seeks z.1.1) : z.2 + decoded_left z.1.1 = total := by
  obtain ⟨-, -, n, copied, rest, hcopy, -, hfew⟩ := hseeks
  obtain ⟨-, -, htill⟩ := copy_decoded_left h.reading.settled c.len _ hcopy
  have hsum := h.sum
  dsimp only at htill
  unfold body_left at hsum
  omega

/-- **The counter.** Of a chunk with `size` bytes the counter is right, and `size` bytes are
delivered before the next header is looked for, exactly if it does not wrap around. -/
theorem counter_exact_iff {grants : Grants} {enc : httpp_encoding_t}
    (hnew : Fresh grants enc) {s : σ} {before : List (ReadCall σ)} {c : ReadCall σ}
    (hcb : ∀ c' ∈ before ++ [c], c'.Answers) {x : httpp_encoding_t × σ}
    {y : (httpp_encoding_t × σ) × Nat} (hbefore : before.foldlM ReadCall.read (enc, s) = .ok x)
    {f : ReadCallback σ} (hf : c.cb = some f) {found : httpp_encoding_t}
    (hsearch : read_search x.1 c.len f x.2 = some found) {size : Nat}
    (hsize : Announces found size) (hpart : buffered found ≤ size)
    (hcall : ReadCall.count (x, 0) c = .ok y) :
    (y.1.1.read_bytes_till_header = size + 2 - buffered found ∧
      ∀ z, BodyRun y z → z.2 ≤ decoded_left x.1 + size ∧
        ∀ c' : ReadCall σ, c'.Seeks z.1.1 → z.2 + decoded_left z.1.1 = decoded_left x.1 + size) ↔
    size + 2 < 2 ^ 64 + buffered found := by
  have hx : Reading x.1 := hnew.calls_reading (fun c' hc' => hcb c' (by simp [hc'])) x hbefore
  have hanswers : Answers f := hcb c (by simp) f hf
  obtain ⟨n, copied, rest, raw, user, unset, hzero, hcopy, hless, hprocess, hfound, hraw, hs,
      hsame, hheader⟩ :=
    read_search_header hanswers hx.sound hsearch
  obtain ⟨-, -, hnone⟩ := copy_decoded_settled x.1 c.len hx.settled _ hcopy
  have hdrained : found.buf_read_decoded = none := hsame.1.trans (hnone c.fits hless)
  have hhandler := handler_counter hprocess hraw hs hdrained hsize hpart hheader
  rw [← hf] at hhandler
  obtain ⟨⟨ret, data, enc', user'⟩, hread, hy⟩ := bind_eq_ok.mp hcall
  cases hy
  obtain ⟨hdelivered, handled, hrun, htill, hkept⟩ :=
    read_counts hx.settled c.fits hzero hcopy hless (fun r hr => (hhandler r hr).1) _ hread
  obtain ⟨-, hchunked, hcounter⟩ := hhandler _ hrun
  have htill' := htill.trans hcounter
  have hexact : size_sub ((size + 2) % 2 ^ 64) (buffered found) = size + 2 - buffered found ↔
      size + 2 < 2 ^ 64 + buffered found := size_sub_exact hsize.lt hpart
  dsimp only at htill' hdelivered hkept hchunked ⊢
  rw [htill', hexact]
  refine ⟨fun h => h.1, fun hfits => ⟨hfits, fun z hz => ?_⟩⟩
  have hcounted :
      Counted (decoded_left x.1 + size)
        (((enc', user'), 0 + data.length) : (httpp_encoding_t × σ) × Nat) := by
    refine ⟨read_reading (hcb c (by simp)) hx c.len x.2 _ hread,
      hkept.trans (hchunked.trans ?_), ?_⟩
    · obtain ⟨hcomplete, raw', text, hcut, -⟩ := hsize
      have htwo := header_two hraw hs hcomplete (not_bare_of_cut hcut)
      exact (chunked_search_idle hprocess (hnone c.fits hless) htwo hfound).process
    · dsimp only
      rw [hexact.mpr hfits] at hdelivered
      omega
  have hend := hz.counted hcounted
  refine ⟨?_, fun c' hseeks => hend.sought hseeks⟩
  have hsum := hend.sum
  omega

/-- The header of a chunk of the largest size there is. -/
def largest : Network := { rest := ascii "ffffffffffffffff\r\n", sizes := [] }

/-- The counter wraps around to one byte, and the body is taken for headers. -/
theorem counter_wraps :
    ¬ ∀ (grants : Grants) (enc : httpp_encoding_t) (s : Network) (before : List (ReadCall Network))
      (c : ReadCall Network) (x : httpp_encoding_t × Network)
      (y : (httpp_encoding_t × Network) × Nat) (f : ReadCallback Network) (found : httpp_encoding_t)
      (size : Nat),
      Fresh grants enc → (∀ c' ∈ before ++ [c], c'.Answers) →
      before.foldlM ReadCall.read (enc, s) = .ok x →
        c.cb = some f → read_search x.1 c.len f x.2 = some found → Announces found size →
        buffered found ≤ size →
        ReadCall.count (x, 0) c = .ok y →
        y.1.1.read_bytes_till_header = size + 2 - buffered found ∧
          ∀ z, BodyRun y z → z.2 ≤ decoded_left x.1 + size ∧
            ∀ c' : ReadCall Network, c'.Seeks z.1.1 →
            z.2 + decoded_left z.1.1 = decoded_left x.1 + size := by
  intro h
  have hanswers : ∀ c ∈ [] ++ [recv16], c.Answers := by simp [recv16_answers]
  have hfound :
    ∃ found, read_search (chunked_encoding fun _ _ _ => true) 16 Network.recv largest = some found ∧
      Announces found (2 ^ 64 - 1) ∧ buffered found = 0 :=
    ⟨_, rfl, ⟨by decide, _, ascii "ffffffffffffffff", rfl, rfl, by decide⟩, rfl⟩
  obtain ⟨found, hsearch, hsize, hnone⟩ := hfound
  obtain ⟨y, hy, hone⟩ : ∃ y,
    ReadCall.count ((chunked_encoding fun _ _ _ => true, largest), 0) recv16 = .ok y ∧
      y.1.1.read_bytes_till_header = 1 := ⟨_, rfl, rfl⟩
  have hcounter :=
    (h _ _ _ _ _ _ _ _ _ _ (fresh_chunked rfl) hanswers rfl rfl hsearch hsize (by omega) hy).1
  rw [hone, hnone] at hcounter
  exact absurd hcounter (by decide)

/-- Three of five bytes come with the header. -/
def halved : Network := { rest := ascii "5\r\nhello\r\n", sizes := [6] }

theorem counter_exact_iff_halved :
    ∃ y, ReadCall.count ((chunked_encoding fun _ _ _ => true, halved), 0) recv16 = .ok y ∧
      y.1.1.read_bytes_till_header = 5 + 2 - 3 ∧
      ∀ z, BodyRun y z → z.2 ≤ 0 + 5 ∧ ∀ c' : ReadCall Network, c'.Seeks z.1.1 →
      z.2 + decoded_left z.1.1 = 0 + 5 := by
  have hanswers : ∀ c ∈ [] ++ [recv16], c.Answers := by simp [recv16_answers]
  have hfound :
    ∃ found, read_search (chunked_encoding fun _ _ _ => true) 16 Network.recv halved = some found ∧
      Announces found 5 ∧ buffered found = 3 :=
    ⟨_, rfl, ⟨by decide, _, ascii "5", rfl, rfl, by decide⟩, rfl⟩
  obtain ⟨found, hsearch, hsize, hthree⟩ := hfound
  obtain ⟨y, hy⟩ : ∃ y, ReadCall.count ((chunked_encoding fun _ _ _ => true, halved), 0) recv16 =
      .ok y := ⟨_, rfl⟩
  have hexact := counter_exact_iff (fresh_chunked rfl) hanswers rfl rfl hsearch hsize (by omega) hy
  rw [hthree] at hexact
  exact ⟨y, hy, hexact.mpr (by decide)⟩

end Encoding
