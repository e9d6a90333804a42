import IcecastCommon.Encoding.Malformed

/-!
# What is taken for a chunk size

The size of a chunk is whatever `sscanf` finds at the front of a header, and so a header may
announce a size without being one.
-/

namespace Encoding

open Lib

variable {σ : Type}

/-! ## Complete headers -/

/-- A header with the CR LF that ends it. -/
def Ended (found : httpp_encoding_t) : Prop :=
  (scan_loop {} found.buf_read_raw_offset (window found)).offset_LF ≠ -1 ∧ ¬ BareLF found

/-- The header up to its first `;`, or up to its CR LF. -/
def size_text (found : httpp_encoding_t) : Bytes :=
  let s := scan_loop {} found.buf_read_raw_offset (window found)
  ((window found).take (s.offset_CR.toNat - found.buf_read_raw_offset)).takeWhile (· != ch ';')

def Hexadecimal (text : Bytes) : Prop := text ≠ [] ∧ ∀ b ∈ text, isxdigit b

theorem NoNumber.not_announces {found : httpp_encoding_t} (h : NoNumber found) (size : Nat) :
    ¬ Announces found size := by
  rintro ⟨-, raw, text, hcut, htext, hsome⟩
  obtain ⟨-, raw', text', hcut', htext', hnone⟩ := h
  obtain rfl := Except.ok.inj (hcut.symm.trans hcut')
  obtain rfl := Except.ok.inj (htext.symm.trans htext')
  rw [hsome] at hnone
  exact absurd hnone (by simp)

theorem header_number {unset : Bytes} {found : httpp_encoding_t} {raw : Bytes}
    (hraw : found.buf_read_raw = some raw) (hs : Sound found)
    (hfound : (scan_loop {} found.buf_read_raw_offset (window found)).offset_LF ≠ -1) :
    Yields (enc_chunked_read_header unset found) fun r =>
      (NoNumber found ∧ r.1 = -1) ∨
      ∃ size cut, Announces found size ∧ CutFrom found cut ∧
        cut.grants .read_decoded = found.grants .read_decoded ∧
        enc_chunked_read_body { cut with buf_read_raw_offset := body_offset found } size =
        .ok r := by
  obtain ⟨hlen, hle⟩ := hs raw hraw
  have hslice :
    slice raw found.buf_read_raw_offset (found.buf_read_raw_len - found.buf_read_raw_offset) =
      .ok (window found) := by
    rw [window_eq hraw hlen, ← hlen]
    exact slice_rest (hlen ▸ hle)
  unfold enc_chunked_read_header
  rw [hraw]
  refine (yields_ok (P := fun r => r = raw) rfl).bind ?_
  rintro raw rfl
  rw [hslice, ok_bind, if_neg hfound]
  extract_lets rest
  have hrest (parsed : httpp_encoding_t) (hgathered : Gathered found parsed) :
      Yields (rest parsed) fun r =>
        (NoNumber found ∧ r.1 = -1) ∨
        ∃ size cut, Announces found size ∧ CutFrom found cut ∧
          cut.grants .read_decoded = found.grants .read_decoded ∧
          enc_chunked_read_body { cut with buf_read_raw_offset := body_offset found } size =
            .ok r := by
    obtain ⟨items, grants, hgrants, rfl⟩ := hgathered
    refine yields_bind fun cut hcut => yields_bind fun text htext => ?_
    have hcutlen : cut.length = found.buf_read_raw_len := by
      rw [(store_eq_ok hcut).2.2, List.length_set, hlen]
    have hstore :
        store (found.buf_read_raw.getD [])
          (scan_loop {} found.buf_read_raw_offset (window found)).cut 0 = .ok cut := by
      rw [hraw]
      exact hcut
    cases hnumber : sscanf_llx text with
    | none => exact yields_ok (.inl ⟨⟨hfound, cut, text, hstore, htext, hnumber⟩, rfl⟩)
    | some size =>
      intro r hr
      exact .inr ⟨size, _, ⟨hfound, cut, text, hstore, htext, hnumber⟩,
        ⟨items, grants, cut, hcutlen, hle, rfl⟩, hgrants, hr⟩
  refine yields_ite (fun _ => ?_) fun _ => ?_
  · exact hrest found ⟨_, _, rfl, rfl⟩
  · exact yields_bind fun parsed hparsed => hrest parsed (extentions_loop_gathered hparsed)

theorem body_returns {self : httpp_encoding_t} (hroom : ∀ size, self.grants .read_decoded 0 size)
    (bodylen : Nat) :
    Yields (enc_chunked_read_body self bodylen) fun r => r.1 = 0 := by
  have hgrant : (malloc self.grants .read_decoded bodylen).1 = true := hroom bodylen
  unfold enc_chunked_read_body
  refine yields_ite (fun _ => yields_ok rfl) fun _ => ?_
  refine yields_ite (fun _ => yields_ok rfl) fun _ => ?_
  refine yields_ite (fun hrefused => absurd hgrant hrefused) fun _ => ?_
  refine yields_bind fun raw _ => yields_bind fun body _ => ?_
  refine yields_ite (fun _ => yields_ok rfl) fun _ => ?_
  exact yields_ite (fun _ => yields_ok rfl) fun _ => yields_ok rfl

/-! ## Runs -/

/-- The result of the call of `__enc_chunked_read` in a call of `httpp_encoding_read`. -/
def ReadCall.handler (x : httpp_encoding_t × σ) (c : ReadCall σ) : C Int := do
  let (ret, _, rest) ← copy_decoded x.1 c.len
  let (ret, _, _, _) ← enc_chunked_read rest
    (if ret > 0 then size_sub c.len ret.toNat else c.len) c.cb x.2
  return ret

/-- `__enc_chunked_read` fails in the call that goes from `x` to `y`, and nothing is delivered any
more. -/
structure Rejects (x y : httpp_encoding_t × σ) (c : ReadCall σ) : Prop where
  fails : c.handler x = .ok (-1)
  nothing : ∀ (after : List (ReadCall σ)) z, (∀ c' ∈ after, c'.Answers) →
    after.foldlM ReadCall.read y = .ok z →
    ∀ c' : ReadCall σ, c'.Answers → ∀ ret data enc s,
      httpp_encoding_read z.1 c'.len c'.cb z.2 = .ok (ret, data, enc, s) → ret = 0 ∨ ret = -1

theorem handler_header {f : ReadCallback σ} (hf : Answers f) {x y : httpp_encoding_t × σ}
    {c : ReadCall σ} (hx : Sound x.1) (hcb : c.cb = some f) {found : httpp_encoding_t}
    (hsearch : read_search x.1 c.len f x.2 = some found) (hcall : ReadCall.read x c = .ok y) :
    ∃ unset r, enc_chunked_read_header unset found = .ok r ∧ c.handler x = .ok r.1 := by
  obtain ⟨n, copied, rest, raw, user, unset, hzero, hcopy, hless, hprocess, -, -, -, -, hheader⟩ :=
    read_search_header hf hx hsearch
  obtain ⟨r, hread, -⟩ := bind_eq_ok.mp hcall
  obtain ⟨ret, data, enc, user', hrun, -⟩ := read_handled hzero hcopy hless c.cb x.2 r hread
  rw [process_read_chunked hprocess, hcb, hheader] at hrun
  obtain ⟨r', hr', hrun⟩ := bind_eq_ok.mp hrun
  cases hrun
  refine ⟨unset, r', hr', ?_⟩
  unfold ReadCall.handler
  rw [hcopy, ok_bind, hcb]
  dsimp only
  rw [hheader, hr']
  rfl

/-- **Chunk sizes.** A header in which `sscanf` finds no number is rejected. As long as there is
memory for the body, no other header is: not those with a blank, a sign or a `0x` before the number
either, and not those with something else behind it. -/
theorem rejects_iff {grants : Grants} {enc : httpp_encoding_t} (hnew : Fresh grants enc) {s : σ}
    {before : List (ReadCall σ)} {c : ReadCall σ} (hcb : ∀ c' ∈ before ++ [c], c'.Answers)
    {x y : httpp_encoding_t × σ} (hbefore : before.foldlM ReadCall.read (enc, s) = .ok x)
    {f : ReadCallback σ} (hf : c.cb = some f) {found : httpp_encoding_t}
    (hsearch : read_search x.1 c.len f x.2 = some found) (hended : Ended found)
    (hcall : ReadCall.read x c = .ok y) :
    (NoNumber found → Rejects x y c) ∧
    ((∀ size, found.grants .read_decoded 0 size) →
      ((¬ Hexadecimal (size_text found) → Rejects x y c) ↔
      (¬ Hexadecimal (size_text found) → NoNumber found))) := by
  have hx : Reading x.1 := hnew.calls_reading (fun c' hc' => hcb c' (by simp [hc'])) x hbefore
  have hanswers : Answers f := hcb c (by simp) f hf
  obtain ⟨_, _, _, raw, _, _, -, -, -, -, -, hraw, hs, -⟩ :=
    read_search_header hanswers hx.sound hsearch
  obtain ⟨unset, r, hheader, hhandler⟩ := handler_header hanswers hx.sound hf hsearch hcall
  have hnumber := header_number hraw hs hended.1 r hheader
  have hrejects (hno : NoNumber found) : Rejects x y c := by
    have hfails : r.1 = -1 := by
      rcases hnumber with ⟨-, hret⟩ | ⟨size, cut, hsize, -⟩
      · exact hret
      · exact absurd hsize (hno.not_announces size)
    have hy : Stuck y.1 := call_malformed (hcb c (by simp)) hx ⟨f, hf, found, hsearch, hno⟩ y hcall
    refine ⟨by rw [hhandler, hfails], fun after z hafter hrun c' hc' ret data enc' s' hread => ?_⟩
    have hz : Stuck z.1 := calls_stuck hafter hy z hrun
    exact (stuck_read hc' hz c'.len z.2 _ hread).1
  refine ⟨hrejects, fun hroom => ⟨fun h hbad => ?_, fun h hbad => hrejects (h hbad)⟩⟩
  rcases hnumber with ⟨hno, -⟩ | ⟨size, cut, -, -, hgrants, hbody⟩
  · exact hno
  · have hreturns : r.1 = 0 := body_returns (fun n => by rw [← hroom n, ← hgrants]) size r hbody
    have hfails := (h hbad).fails
    rw [hhandler, hreturns] at hfails
    exact absurd (Except.ok.inj hfails) (by decide)

/-- A chunk with a sign before its length, and its body in another fragment. -/
def signed : Network := { rest := ascii "+5\r\nhello\r\n", sizes := [4] }

theorem signed_accepted :
    ¬ ∀ (grants : Grants) (enc : httpp_encoding_t) (s : Network) (before : List (ReadCall Network))
      (c : ReadCall Network) (x y : httpp_encoding_t × Network) (f : ReadCallback Network)
      (found : httpp_encoding_t),
      Fresh grants enc → (∀ c' ∈ before ++ [c], c'.Answers) →
      before.foldlM ReadCall.read (enc, s) = .ok x →
        c.cb = some f → read_search x.1 c.len f x.2 = some found → Ended found →
        ReadCall.read x c = .ok y →
        ¬ Hexadecimal (size_text found) → Rejects x y c := by
  intro h
  have hanswers : ∀ c ∈ [] ++ [recv16], c.Answers := by simp [recv16_answers]
  have hfound :
    ∃ found, read_search (chunked_encoding fun _ _ _ => true) 16 Network.recv signed = some found ∧
      Ended found ∧ ¬ Hexadecimal (size_text found) := by
    refine ⟨_, rfl, ⟨by decide, ?_⟩, ?_⟩
    · rintro ⟨-, hhead⟩
      exact absurd hhead (by decide)
    · rintro ⟨-, hx⟩
      exact absurd (hx (ch '+') (by decide)) (by decide)
  obtain ⟨found, hsearch, hended, hbad⟩ := hfound
  obtain ⟨y, hy⟩ : ∃ y, ReadCall.read (chunked_encoding fun _ _ _ => true, signed) recv16 = .ok y :=
    ⟨_, rfl⟩
  have hfails : recv16.handler (chunked_encoding fun _ _ _ => true, signed) = .ok (-1) :=
    (h _ _ _ _ _ _ _ _ _ (fresh_chunked rfl) hanswers rfl rfl hsearch hended hy hbad).fails
  have hreturns : recv16.handler (chunked_encoding fun _ _ _ => true, signed) = .ok 0 := rfl
  rw [hreturns] at hfails
  exact absurd (Except.ok.inj hfails) (by decide)

theorem rejects_iff_no_length :
    ∃ found y, read_search (chunked_encoding fun _ _ _ => true) 16 Network.recv no_length =
      some found ∧
      ReadCall.read (chunked_encoding fun _ _ _ => true, no_length) recv16 = .ok y ∧
      (NoNumber found → Rejects (chunked_encoding fun _ _ _ => true, no_length) y recv16) ∧
      ((∀ size, found.grants .read_decoded 0 size) →
        ((¬ Hexadecimal (size_text found) →
        Rejects (chunked_encoding fun _ _ _ => true, no_length) y recv16) ↔
          (¬ Hexadecimal (size_text found) → NoNumber found))) := by
  have hanswers : ∀ c ∈ [] ++ [recv16], c.Answers := by simp [recv16_answers]
  have hfound :
    ∃ found, read_search (chunked_encoding fun _ _ _ => true) 16 Network.recv no_length =
    some found ∧
      Ended found := by
    refine ⟨_, rfl, by decide, ?_⟩
    rintro ⟨-, hhead⟩
    exact absurd hhead (by decide)
  obtain ⟨found, hsearch, hended⟩ := hfound
  obtain ⟨y, hy⟩ : ∃ y, ReadCall.read (chunked_encoding fun _ _ _ => true, no_length) recv16 =
      .ok y :=
    succeeds_of_toBool (by decide +kernel)
  exact ⟨found, y, hsearch, hy, rejects_iff (fresh_chunked rfl) hanswers rfl rfl hsearch hended hy⟩

end Encoding
