import IcecastCommon.Encoding.Tokens

/-!
# What the extension parser reads

The text of the extensions alone, with nothing behind it. The loop that decodes a value looks at
bytes behind the value, as far away as the value is long, so that a value near the end makes it read
on behind the text.
-/

namespace Encoding

open Lib

/-! ## The values of a text -/

/-- The length of the value that a text starts with. -/
def value_size (in_quote : Nat) : Bytes → Nat
  | [] => 0
  | c :: text =>
    if in_quote ≠ 0 then
      if step_quote in_quote c ≠ 0 then value_size (step_quote in_quote c) text + 1 else 1
    else if c = QUOTE then value_size 1 text + 1
    else if c = ch ';' then 0
    else value_size 0 text + 1

theorem value_size_le (in_quote : Nat) (text : Bytes) : value_size in_quote text ≤ text.length := by
  induction text generalizing in_quote with
  | nil => exact Nat.le_refl 0
  | cons c text ih =>
    have h := ih (step_quote in_quote c)
    have h1 := ih 1
    have h0 := ih 0
    rw [value_size, List.length_cons]
    split_ifs <;> omega

theorem behind_value_lt (u : Bytes) (c : Byte) (n : Nat) :
    (((u.dropWhile (· != ch '=')).tail).drop n).length < (c :: u).length := by
  have h : (u.dropWhile (· != ch '=')).length ≤ u.length := (List.dropWhile_suffix _).length_le
  rw [List.length_drop, List.length_tail, List.length_cons]
  omega

instance decidableGranted :
    ∀ (grants : Grants) (requests : List (Site × Nat)), Decidable (Granted grants requests)
  | _, [] => isTrue trivial
  | grants, (site, size) :: requests =>
    have := decidableGranted (malloc grants site size).2 requests
    inferInstanceAs (Decidable (_ ∧ _))

/-- The values that are decoded, each with the text behind it. The parser stops where it is refused
memory. -/
def values_in (grants : Grants) : Bytes → List (Bytes × Bytes)
  | [] => []
  | c :: u =>
    let key := u.takeWhile (· != ch '=')
    let body := (u.dropWhile (· != ch '=')).tail
    let n := value_size 0 body
    if c = ch ';' ∧ body ≠ [] ∧ Granted grants (valued_requests key.length n) then
      (body.take n, body.drop n) :: values_in (asked grants (valued_requests key.length n))
        (body.drop n)
    else []
termination_by text => text.length
decreasing_by exact behind_value_lt u c _

/-- A value without a quote in front has more bytes behind it than it has itself. -/
def Covered (value rest : Bytes) : Prop :=
  value = [] ∨ value.head? = some QUOTE ∨ value.length < rest.length

/-! ## Measuring -/

section Loops

variable {raw : Bytes} {p : Nat}

theorem value_loop_size {text : Bytes} (hraw : raw.drop p = text) (in_quote : Nat) :
    value_loop raw p in_quote text.length = .ok (value_size in_quote text) := by
  induction text generalizing p in_quote with
  | nil => rfl
  | cons c text ih =>
    have hnext := fun q => ih (drop_next hraw) q
    rw [List.length_cons, value_loop, read_drop hraw, ok_bind, value_size]
    simp only [hnext, ok_bind]
    split_ifs <;> rfl

theorem key_loop_size {u : Bytes} (hraw : raw.drop p = u) :
    key_loop raw p u.length = .ok (u.takeWhile (· != ch '=')).length := by
  induction u generalizing p with
  | nil => rfl
  | cons c u ih =>
    rw [List.length_cons, key_loop, read_drop hraw, ok_bind]
    by_cases hc : c = ch '='
    · rw [if_pos hc, List.takeWhile_cons_of_neg (by simp [hc])]
      rfl
    · rw [if_neg hc, ih (drop_next hraw), List.takeWhile_cons_of_pos (by simp [hc])]
      rfl

/-! ## Decoding -/

theorem push_fits {done : Bytes} {size : Nat} (h : done.length < size) (b : Byte) :
    Succeeds (push done size b) fun done' => done'.length ≤ done.length + 1 := by
  rw [push_ok h]
  exact succeeds_ok (by simp)

theorem decode_loop_quotes (p : Nat) {size n : Nat} :
    ∀ {c in_quote : Nat} (done : Bytes), in_quote ≠ 0 → c + n ≤ raw.length →
    done.length + n ≤ size →
    Succeeds (decode_loop raw p size c in_quote done n) fun value =>
      value.length ≤ done.length + n := by
  induction n with
  | zero => exact fun _ _ _ _ => succeeds_ok (Nat.le_refl _)
  | succ n ih =>
    intro c in_quote done hin hc hsize
    obtain ⟨b, hb⟩ : ∃ b, read raw c = .ok b :=
      ⟨_, read_drop (List.drop_eq_getElem_cons (by omega))⟩
    have hgo (done' : Bytes) (hdone' : done'.length ≤ done.length + 1) :
        Succeeds (if step_quote in_quote b ≠ 0 then
            decode_loop raw p size (c + 1) (step_quote in_quote b) done' n else .ok done')
          fun value => value.length ≤ done.length + (n + 1) := by
      by_cases hstay : step_quote in_quote b ≠ 0
      · rw [if_pos hstay]
        obtain ⟨value, hvalue, hle⟩ :=
          ih done' hstay (show c + 1 + n ≤ raw.length by omega)
            (show done'.length + n ≤ size by omega)
        exact ⟨value, hvalue, by omega⟩
      · rw [if_neg hstay]
        exact succeeds_ok (by omega)
    rw [decode_loop, hb, ok_bind, if_pos hin]
    simp only [pure_eq_ok, ok_bind]
    by_cases hback : b = BACKSLASH
    · rw [if_pos hback]
      exact hgo done (Nat.le_succ _)
    rw [if_neg hback]
    by_cases hquote : b = QUOTE
    · rw [if_pos hquote]
      by_cases hlast : in_quote - 1 ≠ 0
      · rw [if_pos hlast]
        exact (push_fits (by omega) _).bind hgo
      · rw [if_neg hlast]
        exact hgo done (Nat.le_succ _)
    · rw [if_neg hquote]
      exact (push_fits (by omega) _).bind hgo

theorem decode_loop_fits {size n : Nat} :
    ∀ {c : Nat} (done : Bytes), c + n ≤ raw.length → p + n < raw.length →
    done.length + n ≤ size → Succeeds (decode_loop raw p size c 0 done n) fun value =>
      value.length ≤ done.length + n := by
  induction n with
  | zero => exact fun _ _ _ _ => succeeds_ok (Nat.le_refl _)
  | succ n ih =>
    intro c done hc hp hsize
    obtain ⟨b, hb⟩ : ∃ b, read raw c = .ok b :=
      ⟨_, read_drop (List.drop_eq_getElem_cons (by omega))⟩
    obtain ⟨d, hd⟩ : ∃ d, read raw (p + (n + 1)) = .ok d :=
      ⟨_, read_drop (List.drop_eq_getElem_cons (by omega))⟩
    rw [decode_loop, hb, ok_bind, if_neg (by simp)]
    by_cases hquote : b = QUOTE
    · rw [if_pos hquote]
      obtain ⟨value, hvalue, hle⟩ := decode_loop_quotes p (c := c + 1) done one_ne_zero
        (show c + 1 + n ≤ raw.length by omega) (show done.length + n ≤ size by omega)
      exact ⟨value, hvalue, by omega⟩
    rw [if_neg hquote, hd, ok_bind]
    by_cases hsemi : d = ch ';'
    · rw [if_pos hsemi]
      exact succeeds_ok (Nat.le_add_right _ _)
    · rw [if_neg hsemi]
      refine (push_fits (by omega) b).bind fun done' hdone' => ?_
      obtain ⟨value, hvalue, hle⟩ := ih done' (show c + 1 + n ≤ raw.length by omega) (by omega)
        (show done'.length + n ≤ size by omega)
      exact ⟨value, hvalue, by omega⟩

theorem decode_loop_covered {value rest : Bytes} {c : Nat} (size : Nat)
    (hraw : raw.drop c = value ++ rest) (hrest : raw.drop p = rest) (hp : p ≤ raw.length)
    (hsize : value.length ≤ size) :
    (Covered value rest → Succeeds (decode_loop raw p size c 0 [] value.length) fun v =>
      v.length ≤ value.length) ∧
      (¬ Covered value rest → decode_loop raw p size c 0 [] value.length = .error .bounds) := by
  cases value with
  | nil => exact ⟨fun _ => succeeds_ok (Nat.le_refl 0), fun h => absurd (.inl rfl) h⟩
  | cons b value =>
    have hc : c + (b :: value).length ≤ raw.length := by
      have hlen := congrArg List.length hraw
      rw [List.length_drop, List.length_append, List.length_cons] at hlen
      rw [List.length_cons]
      omega
    have hlen : raw.length = p + rest.length := by
      have hlen := congrArg List.length hrest
      rw [List.length_drop] at hlen
      omega
    by_cases hquote : b = QUOTE
    · refine ⟨fun _ => ?_, fun h => absurd (.inr (.inl (congrArg some hquote))) h⟩
      rw [List.length_cons] at hc hsize ⊢
      rw [decode_loop, read_drop hraw, ok_bind, if_neg (by simp), if_pos hquote]
      obtain ⟨v, hv, hle⟩ := decode_loop_quotes p (c := c + 1) [] one_ne_zero
        (show c + 1 + value.length ≤ raw.length by omega)
          (show ([] : Bytes).length + value.length ≤ size by simp; omega)
      exact ⟨v, hv, by simp at hle; omega⟩
    · have hcovered : Covered (b :: value) rest ↔ (b :: value).length < rest.length := by
        simp [Covered, hquote]
      rw [hcovered]
      constructor
      · intro hlt
        obtain ⟨v, hv, hle⟩ := decode_loop_fits (p := p) [] hc (by omega)
          (show ([] : Bytes).length + (b :: value).length ≤ size by simpa using hsize)
        exact ⟨v, hv, by simpa using hle⟩
      · intro hge
        have hread : read raw (p + (b :: value).length) = .error .bounds := by
          unfold Lib.read
          rw [List.getElem?_eq_none (by omega)]
          rfl
        rw [List.length_cons] at hread ⊢
        rw [decode_loop, read_drop hraw, ok_bind, if_neg (by simp), if_neg hquote, hread]
        rfl

end Loops

/-! ## One extension -/

section Rounds

variable {raw u : Bytes} {p fuel : Nat} {self : httpp_encoding_t}

theorem key_and_body (u : Bytes) :
    u.takeWhile (· != ch '=') = u ∧ (u.dropWhile (· != ch '=')).tail = [] ∨
    u = u.takeWhile (· != ch '=') ++ ch '=' :: (u.dropWhile (· != ch '=')).tail := by
  have hsplit : u.takeWhile (· != ch '=') ++ u.dropWhile (· != ch '=') = u :=
    List.takeWhile_append_dropWhile
  have hhead := List.head?_dropWhile_not (· != ch '=') u
  cases hrest : u.dropWhile (· != ch '=') with
  | nil =>
    rw [hrest, List.append_nil] at hsplit
    exact .inl ⟨hsplit, rfl⟩
  | cons c rest =>
    rw [hrest] at hhead
    have hc : c = ch '=' := by simpa using hhead
    rw [hrest, hc] at hsplit
    exact .inr hsplit.symm

theorem extentions_loop_stops {c : Byte} (hraw : raw.drop p = c :: u)
    (h : ¬ (c = ch ';' ∧ (u.dropWhile (· != ch '=')).tail ≠ [] ∧
      Granted self.grants (valued_requests (u.takeWhile (· != ch '=')).length
        (value_size 0 (u.dropWhile (· != ch '=')).tail)))) :
    extentions_loop raw (fuel + 1) self p (c :: u).length ≠ .error .bounds := by
  have hin : p < raw.length := by
    have hlen := congrArg List.length hraw
    rw [List.length_drop, List.length_cons] at hlen
    omega
  have hraw2 := drop_next hraw
  rw [List.length_cons, extentions_loop, if_neg (by omega), read_drop hraw, ok_bind,
    Nat.add_sub_cancel, meta_new_null]
  by_cases hsemi : c = ch ';'
  swap
  · rw [if_pos hsemi]
    rintro ⟨⟩
  rw [if_neg (not_not.mpr hsemi)]
  by_cases hitem : (malloc self.grants .item 32).1 = true
  swap
  · rw [if_neg hitem]
    rintro ⟨⟩
  rw [if_pos hitem]
  have hslice {key rest : Bytes} (hu : u = key ++ rest) : slice raw (p + 1) key.length = .ok key :=
    slice_drop (by omega) (hraw2.trans hu)
  simp only [key_loop_size hraw2, ok_bind]
  by_cases hkey : (malloc (malloc self.grants .item 32).2 .key
    ((u.takeWhile (· != ch '=')).length + 1)).1 = true
  swap
  · rw [if_pos hkey]
    rintro ⟨⟩
  rw [if_neg (not_not.mpr hkey)]
  rcases key_and_body u with ⟨hall, -⟩ | hparts
  · rw [hall, hslice (List.append_nil u).symm, ok_bind, Nat.sub_self, if_pos rfl]
    rintro ⟨⟩
  generalize u.takeWhile (· != ch '=') = key at *
  generalize (u.dropWhile (· != ch '=')).tail = body at *
  have hbody := drop_behind (hraw2.trans hparts)
  have hlen : u.length = key.length + 1 + body.length := by
    rw [hparts]
    simp
    omega
  rw [hslice hparts, ok_bind, if_neg (by omega), read_drop hbody, ok_bind, if_neg (by simp)]
  by_cases hnil : body = []
  · rw [hnil, List.length_nil] at hlen
    rw [if_pos (by omega)]
    rintro ⟨⟩
  have hsize : u.length - key.length - 1 = body.length := by omega
  have hpos := List.length_pos_iff.mpr hnil
  rw [hsize, if_neg (by omega), value_loop_size (drop_next hbody), ok_bind, if_pos]
  · rintro ⟨⟩
  · intro hvalue
    exact h ⟨hsemi, hnil, hitem, hkey, hvalue, trivial⟩

theorem extentions_loop_decodes {key body : Bytes} (hp : p ≤ raw.length)
    (hraw : raw.drop p = ch ';' :: (key ++ ch '=' :: body)) (hkey : ch '=' ∉ key)
    (hbody : body ≠ [])
    (hgranted : Granted self.grants (valued_requests key.length (value_size 0 body))) :
    extentions_loop raw (fuel + 1) self p (ch ';' :: (key ++ ch '=' :: body)).length = (do
      let value ← decode_loop raw (p + 1 + key.length + 1 + value_size 0 body)
        (value_size 0 body + 1) (p + 1 + key.length + 1) 0 [] (value_size 0 body)
      let block ← push value (value_size 0 body + 1) 0
      extentions_loop raw fuel
        (add_meta_read
          { self with
            grants := asked self.grants (valued_requests key.length (value_size 0 body)) }
          { key := some (key ++ [0]), value := some block, value_len := value.length })
        (p + 1 + key.length + 1 + value_size 0 body) (body.length - value_size 0 body)) := by
  have hin : p < raw.length := by
    have hlen := congrArg List.length hraw
    rw [List.length_drop, List.length_cons] at hlen
    omega
  have hraw2 := drop_next hraw
  have hpos := List.length_pos_iff.mpr hbody
  obtain ⟨hitem, hkeyed, hvalued, -⟩ := hgranted
  have hlen : (ch ';' :: (key ++ ch '=' :: body)).length = key.length + 2 + body.length := by
    simp
    omega
  rw [extentions_loop, hlen, if_neg (by omega), read_drop hraw, ok_bind, if_neg (by simp),
    meta_new_null, if_pos hitem]
  simp only [key_loop_token hraw2 hkey
    (.inr ⟨show key.length < key.length + 2 + body.length - 1 by omega, _, rfl⟩), ok_bind,
    hkeyed, not_true, if_false, slice_drop (show p + 1 ≤ raw.length by omega) hraw2]
  have hsize : key.length + 2 + body.length - 1 - key.length - 1 = body.length := by omega
  rw [if_neg (by omega), read_drop (drop_behind hraw2), ok_bind, if_neg (by simp),
    if_neg (by omega), hsize, value_loop_size (drop_next (drop_behind hraw2)), ok_bind]
  simp only [hvalued, not_true, if_false]
  rfl

end Rounds

/-! ## The whole text -/

/-- The loop stays inside a text that nothing follows if and only if every value is covered. -/
theorem extentions_loop_confined {raw : Bytes} (text : Bytes) :
    ∀ {p fuel : Nat} {self : httpp_encoding_t}, p ≤ raw.length →
    raw.drop p = text → text.length < fuel →
    (extentions_loop raw fuel self p text.length ≠ .error .bounds ↔
      ∀ x ∈ values_in self.grants text, Covered x.1 x.2) := by
  induction hn : text.length using Nat.strong_induction_on generalizing text with
  | _ n ih =>
    intro p fuel self hp hraw hfuel
    subst hn
    obtain ⟨fuel, rfl⟩ : ∃ k, fuel = k + 1 := ⟨fuel - 1, by omega⟩
    cases text with
    | nil =>
      rw [values_in]
      exact iff_of_true nofun (by simp)
    | cons c u =>
      rw [values_in]
      by_cases h : c = ch ';' ∧ (u.dropWhile (· != ch '=')).tail ≠ [] ∧
          Granted self.grants (valued_requests (u.takeWhile (· != ch '=')).length
            (value_size 0 (u.dropWhile (· != ch '=')).tail))
      swap
      · simp only [if_neg h]
        exact iff_of_true (extentions_loop_stops hraw h) (by simp)
      simp only [if_pos h, List.forall_mem_cons]
      obtain ⟨rfl, hbody, hgranted⟩ := h
      have hkey : ch '=' ∉ u.takeWhile (· != ch '=') :=
        fun hmem => absurd (List.mem_takeWhile_imp hmem) (by simp)
      have hparts :
          u = u.takeWhile (· != ch '=') ++ ch '=' :: (u.dropWhile (· != ch '=')).tail := by
        rcases key_and_body u with ⟨-, hnone⟩ | hparts
        · exact absurd hnone hbody
        · exact hparts
      generalize u.takeWhile (· != ch '=') = key at *
      generalize (u.dropWhile (· != ch '=')).tail = body at *
      subst hparts
      have hle := value_size_le 0 body
      have hvalue : raw.drop (p + 1 + key.length + 1) = body :=
        drop_next (drop_behind (drop_next hraw))
      have hrest :
          raw.drop (p + 1 + key.length + 1 + value_size 0 body) =
          body.drop (value_size 0 body) := by
        rw [← hvalue, List.drop_drop]
      have htake : (body.take (value_size 0 body)).length = value_size 0 body := by
        rw [List.length_take]
        omega
      have hin : p + 1 + key.length + 1 + value_size 0 body ≤ raw.length := by
        have hlen := congrArg List.length hraw
        rw [List.length_drop, List.length_cons, List.length_append, List.length_cons] at hlen
        omega
      obtain ⟨hgood, hbad⟩ := decode_loop_covered (value_size 0 body + 1)
        (hvalue.trans (List.take_append_drop (value_size 0 body) body).symm) hrest hin (by omega)
      rw [htake] at hgood hbad
      rw [extentions_loop_decodes hp hraw hkey hbody hgranted]
      by_cases hcovered : Covered (body.take (value_size 0 body)) (body.drop (value_size 0 body))
      · obtain ⟨value, hdecode, hfits⟩ := hgood hcovered
        rw [hdecode, ok_bind, push_ok (by omega), ok_bind, ← List.length_drop]
        have hshort := behind_value_lt (key ++ ch '=' :: body) (ch ';') (value_size 0 body)
        rw [ih _ (by simp; omega) _ rfl hin hrest (by simp at hfuel ⊢; omega)]
        exact (and_iff_right hcovered).symm
      · rw [hbad hcovered]
        exact iff_of_false (fun h => h rfl) (fun h => hcovered h.1)

/-- **What the parser reads.** Of a text with nothing behind it, the parser reads no byte outside
and stores no byte outside of a value's memory if and only if every value that it decodes is
covered. -/
theorem extentions_confined_iff (self : httpp_encoding_t) (text : Bytes) :
    enc_chunked_read_extentions self text 0 text.length ≠ .error .bounds ↔
      ∀ x ∈ values_in self.grants text, Covered x.1 x.2 :=
  extentions_loop_confined text (Nat.zero_le _) List.drop_zero (Nat.lt_succ_self _)

/-- The value `b` ends the text, and `p[1]` is read behind it. -/
theorem extentions_read_behind :
    ¬ ∀ (self : httpp_encoding_t) (text : Bytes),
      enc_chunked_read_extentions self text 0 text.length ≠ .error .bounds :=
  fun h => h (chunked_encoding fun _ _ _ => true) (ascii ";a=b") rfl

end Encoding
