import IcecastCommon.Encoding.Reads

/-!
# Chunk extensions

The text of the extensions that `__enc_chunked_write_extensions` writes for metadata, and what
`__enc_chunked_read_extentions` makes of it.
-/

namespace Encoding

open Lib

/-! ## The text -/

/-- A key and its value. -/
abbrev Pair := Bytes × Bytes

/-- The item in memory has this key and this value. -/
structure Stands (item : httpp_meta_t) (p : Pair) : Prop where
  key : ∃ block, item.key = some block ∧ cstring block = .ok p.1
  value_len : item.value_len = p.2.length
  value : p.2 ≠ [] → ∃ block, item.value = some block ∧ p.2 <+: block

/-- A quoted value. -/
def quoted (value : Bytes) : Bytes := QUOTE :: escape value ++ [QUOTE]

def extension (p : Pair) : Bytes := ch ';' :: p.1 ++ if p.2 = [] then [] else ch '=' :: quoted p.2

def extensions (ps : List Pair) : Bytes := ps.flatMap extension

/-- The text up to its first NUL. -/
def written (ps : List Pair) : Bytes := (extensions ps).takeWhile (· != 0)

/-- The size that is asked for. -/
def extensions_room (ps : List Pair) : Nat :=
  1 + (ps.map fun p => 4 + p.1.length + (p.2.length + p.2.count QUOTE)).sum

theorem escape_length (value : Bytes) :
    (escape value).length = value.length + value.count QUOTE := by
  induction value with
  | nil => rfl
  | cons c value ih =>
    have hcons :
      escape (c :: value) = (if c = QUOTE then [BACKSLASH, c] else [c]) ++ escape value := rfl
    rw [hcons, List.length_append, ih]
    by_cases hc : c = QUOTE
    · rw [if_pos hc, hc, List.count_cons_self]
      simp only [List.length_cons, List.length_nil]
      omega
    · rw [if_neg hc, List.count_cons_of_ne (fun h => hc h)]
      simp only [List.length_cons, List.length_nil]
      omega

theorem extension_length_le (p : Pair) :
    (extension p).length ≤ 4 + p.1.length + (p.2.length + p.2.count QUOTE) := by
  unfold extension quoted
  split_ifs with hp
  · simp
    omega
  · simp [escape_length]
    omega

theorem extensions_length_lt (ps : List Pair) : (extensions ps).length < extensions_room ps := by
  unfold extensions extensions_room
  induction ps with
  | nil => simp
  | cons p ps ih =>
    have := extension_length_le p
    rw [List.flatMap_cons, List.length_append, List.map_cons, List.sum_cons]
    omega

/-! ## The writer -/

namespace Stands

variable {item : httpp_meta_t} {p : Pair}

theorem kept (h : Stands item p) : left_out item = false := by
  obtain ⟨block, hkey, -⟩ := h.key
  unfold left_out
  rw [decide_eq_false_iff_not, hkey, h.value_len]
  rintro (hnone | ⟨hlen, hnone⟩)
  · exact absurd hnone (by simp)
  · obtain ⟨value, hvalue, -⟩ := h.value fun hp => hlen (by rw [hp]; rfl)
    exact absurd hnone (by simp [hvalue])

theorem valuelen (h : Stands item p) :
    enc_chunked_write_extensions_valuelen item = .ok (p.2.length + p.2.count QUOTE) := by
  unfold enc_chunked_write_extensions_valuelen
  by_cases hp : p.2 = []
  · rw [h.value_len, hp]
    split <;> rfl
  · obtain ⟨block, hvalue, hpre⟩ := h.value hp
    have hlen : ¬ p.2.length = 0 := fun hz => hp (List.eq_nil_of_length_eq_zero hz)
    simp only [hvalue, h.value_len, if_neg hlen, slice_front hpre.length_le, ok_bind, pure_eq_ok]
    rw [← List.prefix_iff_eq_take.mp hpre]

theorem room (h : Stands item p) :
    extension_room item = .ok (4 + p.1.length + (p.2.length + p.2.count QUOTE)) := by
  obtain ⟨block, hkey, hstring⟩ := h.key
  unfold extension_room strlen
  simp only [h.kept, hkey, deref, pure_eq_ok, ok_bind, hstring, h.valuelen]
  rfl

theorem text (h : Stands item p) : extension_text item = .ok (extension p) := by
  obtain ⟨block, hkey, hstring⟩ := h.key
  unfold extension_text extension quoted
  simp only [h.kept, hkey, deref, pure_eq_ok, ok_bind, hstring, h.value_len,
    List.length_eq_zero_iff]
  by_cases hp : p.2 = []
  · simp [hp]
  · obtain ⟨value, hvalue, hpre⟩ := h.value hp
    simp only [if_neg hp, hvalue, ok_bind, slice_front hpre.length_le]
    rw [← List.prefix_iff_eq_take.mp hpre]
    simp

end Stands

theorem mapM_room {items : List httpp_meta_t} {ps : List Pair} (h : List.Forall₂ Stands items ps) :
    items.mapM extension_room = .ok (ps.map fun p =>
      4 + p.1.length + (p.2.length + p.2.count QUOTE)) := by
  induction h with
  | nil => rfl
  | cons hp _ ih =>
    rw [List.mapM_cons, hp.room, ok_bind, ih]
    rfl

theorem mapM_text {items : List httpp_meta_t} {ps : List Pair} (h : List.Forall₂ Stands items ps) :
    items.mapM extension_text = .ok (ps.map extension) := by
  induction h with
  | nil => rfl
  | cons hp _ ih =>
    rw [List.mapM_cons, hp.text, ok_bind, ih]
    rfl

theorem enc_chunked_write_extensions_spec {self : httpp_encoding_t} {ps : List Pair}
    (hne : self.meta_write ≠ []) (h : List.Forall₂ Stands self.meta_write ps) :
    enc_chunked_write_extensions self =
      if self.grants .extensions 0 (extensions_room ps) = true then
        .ok (some (extensions ps ++ [0]),
          { self with
            meta_write := [], grants := (malloc self.grants .extensions (extensions_room ps)).2 })
      else .ok (none,
      { self with grants := (malloc self.grants .extensions (extensions_room ps)).2 }) := by
  have hfits := extensions_length_lt ps
  have hroom : 1 + (ps.map fun p => 4 + p.1.length + (p.2.length + p.2.count QUOTE)).sum =
      extensions_room ps := rfl
  have htext : (ps.map extension).flatten = extensions ps := rfl
  unfold enc_chunked_write_extensions
  rw [if_neg hne, mapM_room h, ok_bind]
  simp only [hroom, malloc, mapM_text h, ok_bind, htext, pure_eq_ok, List.length_append,
    List.length_singleton, if_neg (show ¬ extensions_room ps < (extensions ps).length + 1 by omega)]
  by_cases hgrant : self.grants .extensions 0 (extensions_room ps) = true
  · simp only [hgrant, not_true, if_false, if_true]
  · simp only [hgrant]
    rfl

/-! ## The reader -/

/-- A key that is left as it is. -/
structure Token (key : Bytes) : Prop where
  ne_nil : key ≠ []
  plain : ∀ b ∈ key, b ≠ ch ';' ∧ b ≠ ch '=' ∧ b ≠ QUOTE ∧ b ≠ CR ∧ b ≠ LF ∧ b ≠ 0

instance (key : Bytes) : Decidable (Token key) :=
  have := List.decidableBAll (fun b : Byte => b ≠ ch ';' ∧ b ≠ ch '=' ∧ b ≠ QUOTE ∧ b ≠ CR ∧
    b ≠ LF ∧ b ≠ 0) key
  decidable_of_iff (key ≠ [] ∧ ∀ b ∈ key, b ≠ ch ';' ∧ b ≠ ch '=' ∧ b ≠ QUOTE ∧ b ≠ CR ∧
    b ≠ LF ∧ b ≠ 0)
    ⟨fun h => ⟨h.1, h.2⟩, fun h => ⟨h.ne_nil, h.plain⟩⟩

theorem Token.nulFree {key : Bytes} (h : Token key) : 0 ∉ key :=
  fun h0 => (h.plain 0 h0).2.2.2.2.2 rfl

/-- The item that the reader makes. -/
def stored (p : Pair) : httpp_meta_t :=
  { key := some (p.1 ++ [0]), value := some (p.2 ++ [0]), value_len := p.2.length }

theorem stored_stands {p : Pair} (hkey : 0 ∉ p.1) : Stands (stored p) p :=
  ⟨⟨_, rfl, cstring_append hkey []⟩, rfl, fun _ => ⟨_, rfl, List.prefix_append _ _⟩⟩

theorem stored_stand {ps : List Pair} (hkeys : ∀ p ∈ ps, 0 ∉ p.1) :
    List.Forall₂ Stands (ps.map stored) ps := by
  induction ps with
  | nil => exact .nil
  | cons p ps ih =>
    exact .cons (stored_stands (hkeys p (by simp))) (ih fun q hq =>
      hkeys q (List.mem_cons_of_mem p hq))

theorem key_loop_token {raw key rest : Bytes} {p len : Nat} (hraw : raw.drop p = key ++ rest)
    (hkey : ch '=' ∉ key)
    (hend : len = key.length ∨ key.length < len ∧ ∃ tail, rest = ch '=' :: tail) :
    key_loop raw p len = .ok key.length := by
  induction key generalizing p len with
  | nil =>
    rcases hend with rfl | ⟨hlen, tail, rfl⟩
    · rfl
    · obtain ⟨n, rfl⟩ : ∃ n, len = n + 1 := ⟨len - 1, by simp at hlen; omega⟩
      unfold key_loop
      rw [read_drop hraw, ok_bind, if_pos rfl]
      rfl
  | cons c key ih =>
    obtain ⟨n, rfl⟩ : ∃ n, len = n + 1 := ⟨len - 1, by simp at hend; omega⟩
    rw [List.mem_cons, not_or] at hkey
    unfold key_loop
    rw [read_drop hraw, ok_bind, if_neg (fun h => hkey.1 h.symm),
      ih (drop_next hraw) hkey.2 (by simpa using hend)]
    rfl

theorem escape_cons (c : Byte) (value : Bytes) :
    escape (c :: value) = (if c = QUOTE then [BACKSLASH, c] else [c]) ++ escape value := rfl

theorem escape_plain {u : Bytes} (hu : QUOTE ∉ u) : escape u = u := by
  induction u with
  | nil => rfl
  | cons c u ih =>
    rw [List.mem_cons, not_or] at hu
    rw [escape_cons, if_neg (fun h => hu.1 h.symm), ih hu.2]
    rfl

theorem value_loop_inside {raw rest : Bytes} {p in_quote len n : Nat} {c : Byte}
    (hraw : raw.drop p = c :: rest) (hin : in_quote ≠ 0) (hstay : step_quote in_quote c ≠ 0)
    (hrest : value_loop raw (p + 1) (step_quote in_quote c) len = .ok n) :
    value_loop raw p in_quote (len + 1) = .ok (n + 1) := by
  unfold value_loop
  rw [read_drop hraw, ok_bind, if_pos hin, if_pos hstay, hrest]
  rfl

theorem step_quote_plain {c : Byte} (hquote : c ≠ QUOTE) (hback : c ≠ BACKSLASH) (in_quote : Nat) :
    step_quote in_quote c = in_quote := by
  unfold step_quote
  rw [if_neg hback, if_neg hquote]

theorem value_loop_escape {raw value rest : Bytes} {p len : Nat}
    (hraw : raw.drop p = escape value ++ QUOTE :: rest) (hvalue : BACKSLASH ∉ value)
    (hlen : (escape value).length < len) :
    value_loop raw p 1 len = .ok ((escape value).length + 1) := by
  induction value generalizing p len with
  | nil =>
    obtain ⟨n, rfl⟩ : ∃ n, len = n + 1 := ⟨len - 1, by simp [escape] at hlen; omega⟩
    unfold value_loop
    rw [read_drop hraw]
    rfl
  | cons c value ih =>
    rw [List.mem_cons, not_or] at hvalue
    rw [escape_cons] at hraw hlen ⊢
    by_cases hc : c = QUOTE
    · subst hc
      rw [if_pos rfl] at hraw hlen ⊢
      simp only [List.length_append, List.length_cons, List.length_nil] at hlen ⊢
      obtain ⟨n, rfl⟩ : ∃ n, len = n + 2 := ⟨len - 2, by omega⟩
      have hquote : raw.drop (p + 1) = QUOTE :: (escape value ++ QUOTE :: rest) := drop_next hraw
      have hnext : value_loop raw (p + 1 + 1) 1 n = .ok ((escape value).length + 1) :=
        ih (drop_next hquote) hvalue.2 (by omega)
      have hlast : value_loop raw (p + 1) 2 (n + 1) = .ok ((escape value).length + 1 + 1) :=
        value_loop_inside hquote (by decide) (by decide) hnext
      have hall : value_loop raw p 1 (n + 2) = .ok ((escape value).length + 1 + 1 + 1) :=
        value_loop_inside hraw (by decide) (by decide) hlast
      rw [hall]
      congr 1
      omega
    · rw [if_neg hc] at hraw hlen ⊢
      simp only [List.length_append, List.length_singleton] at hlen ⊢
      obtain ⟨n, rfl⟩ : ∃ n, len = n + 1 := ⟨len - 1, by omega⟩
      have hstep := step_quote_plain hc (fun h => hvalue.1 h.symm) 1
      have hnext : value_loop raw (p + 1) 1 n = .ok ((escape value).length + 1) :=
        ih (drop_next hraw) hvalue.2 (by omega)
      have hall : value_loop raw p 1 (n + 1) = .ok ((escape value).length + 1 + 1) :=
        value_loop_inside hraw (by decide) (by rw [hstep]; decide) (by rw [hstep]; exact hnext)
      rw [hall]
      congr 1
      omega

theorem value_loop_quoted {raw value rest : Bytes} {p len : Nat}
    (hraw : raw.drop p = quoted value ++ rest) (hvalue : BACKSLASH ∉ value)
    (hlen : (quoted value).length ≤ len) :
    value_loop raw p 0 len = .ok (quoted value).length := by
  unfold quoted at hlen ⊢
  have hraw' : raw.drop p = QUOTE :: (escape value ++ QUOTE :: rest) := by
    rw [hraw]
    simp [quoted]
  simp only [List.length_append, List.length_cons, List.length_nil] at hlen ⊢
  obtain ⟨n, rfl⟩ : ∃ n, len = n + 1 := ⟨len - 1, by omega⟩
  unfold value_loop
  rw [read_drop hraw', ok_bind, if_neg (by decide), if_pos rfl,
    value_loop_escape (drop_next hraw') hvalue (by omega)]
  rfl

theorem push_ok {value : Bytes} {size : Nat} (h : value.length < size) (b : Byte) :
    push value size b = .ok (value ++ [b]) := if_pos h

/-- What a byte inside the quotes adds to a value. -/
def unquote (in_quote : Nat) (b : Byte) : Bytes :=
  if b = BACKSLASH ∨ (b = QUOTE ∧ in_quote - 1 = 0) then [] else [b]

theorem decode_loop_inside {raw rest done : Bytes} {c p size in_quote n : Nat} {b : Byte}
    (hraw : raw.drop c = b :: rest) (hin : in_quote ≠ 0) (hstay : step_quote in_quote b ≠ 0)
    (hsize : done.length < size) :
    decode_loop raw p size c in_quote done (n + 1) =
      decode_loop raw p size (c + 1) (step_quote in_quote b) (done ++ unquote in_quote b) n := by
  rw [decode_loop, read_drop hraw, ok_bind, if_pos hin]
  simp only [if_pos hstay]
  unfold unquote
  by_cases hback : b = BACKSLASH
  · rw [if_pos hback, if_pos (.inl hback), List.append_nil]
    rfl
  · by_cases hquote : b = QUOTE
    · by_cases hlast : in_quote - 1 = 0
      · rw [if_neg hback, if_pos hquote, if_neg (not_not.mpr hlast), if_pos (.inr ⟨hquote, hlast⟩),
          List.append_nil]
        rfl
      · rw [if_neg hback, if_pos hquote, if_pos hlast, if_neg (by simp [hback, hlast]),
          push_ok hsize, hquote]
        rfl
    · rw [if_neg hback, if_neg hquote, if_neg (by simp [hback, hquote]), push_ok hsize]
      rfl

theorem decode_loop_escape {raw value rest : Bytes} {c p size : Nat} {done : Bytes}
    (hraw : raw.drop c = escape value ++ QUOTE :: rest) (hvalue : BACKSLASH ∉ value)
    (hsize : done.length + value.length < size) :
    decode_loop raw p size c 1 done ((escape value).length + 1) = .ok (done ++ value) := by
  induction value generalizing c done with
  | nil =>
    unfold decode_loop
    rw [read_drop hraw, ok_bind, if_pos (by decide), if_neg (by decide), if_pos rfl,
      if_neg (by decide)]
    simp [step_quote, QUOTE, BACKSLASH]
  | cons b value ih =>
    rw [List.mem_cons, not_or] at hvalue
    rw [List.length_cons] at hsize
    rw [escape_cons] at hraw ⊢
    have hnext {c' : Nat} (hraw' : raw.drop c' = escape value ++ QUOTE :: rest) :
        decode_loop raw p size c' 1 (done ++ [b]) ((escape value).length + 1) =
          .ok (done ++ b :: value) := by
      rw [ih hraw' hvalue.2 (by simp; omega)]
      simp
    by_cases hb : b = QUOTE
    · subst hb
      rw [if_pos rfl] at hraw ⊢
      have hquote : raw.drop (c + 1) = QUOTE :: (escape value ++ QUOTE :: rest) := drop_next hraw
      have hlen :
          ([BACKSLASH, QUOTE] ++ escape value).length + 1 = (escape value).length + 1 + 1 + 1 := by
        simp
      rw [hlen, decode_loop_inside hraw (by decide) (by decide) (by omega)]
      have hback : done ++ unquote 1 BACKSLASH = done := List.append_nil done
      rw [hback, show step_quote 1 BACKSLASH = 2 from rfl,
        decode_loop_inside hquote (by decide) (by decide) (by omega)]
      exact hnext (drop_next hquote)
    · rw [if_neg hb] at hraw ⊢
      have hback : b ≠ BACKSLASH := fun h => hvalue.1 h.symm
      have hstep := step_quote_plain hb hback 1
      have hadd : unquote 1 b = [b] := by simp [unquote, hb, hback]
      have hlen : ([b] ++ escape value).length + 1 = (escape value).length + 1 + 1 := by simp
      rw [hlen, decode_loop_inside hraw (by decide) (by rw [hstep]; decide) (by omega), hstep, hadd]
      exact hnext (drop_next hraw)

theorem decode_loop_quoted {raw value rest : Bytes} {c p size : Nat}
    (hraw : raw.drop c = quoted value ++ rest) (hvalue : BACKSLASH ∉ value)
    (hsize : value.length < size) :
    decode_loop raw p size c 0 [] (quoted value).length = .ok value := by
  have hraw' : raw.drop c = QUOTE :: (escape value ++ QUOTE :: rest) := by
    rw [hraw]
    simp [quoted]
  have hlen : (quoted value).length = (escape value).length + 1 + 1 := by simp [quoted]
  rw [hlen]
  unfold decode_loop
  rw [read_drop hraw', ok_bind, if_neg (by decide), if_pos rfl,
    decode_loop_escape (drop_next hraw') hvalue (by simpa using hsize)]
  rfl

/-- A value that the reader gives back as it was. -/
structure Restored (p : Pair) : Prop where
  key : Token p.1
  ne_nil : p.2 ≠ []
  no_backslash : BACKSLASH ∉ p.2
  nulFree : 0 ∉ p.2

theorem extension_length {p : Pair} (hp : p.2 ≠ []) :
    (extension p).length = 1 + p.1.length + 1 + (quoted p.2).length := by
  unfold extension
  rw [if_neg hp]
  simp
  omega

/-! ### The memory for an item -/

/-- The allocator after some requests. -/
def asked (grants : Grants) (requests : List (Site × Nat)) : Grants :=
  requests.foldl (fun grants request => (malloc grants request.1 request.2).2) grants

/-- All of some requests are granted, one after the other. -/
def Granted (grants : Grants) : List (Site × Nat) → Prop
  | [] => True
  | (site, size) :: requests =>
    (malloc grants site size).1 = true ∧ Granted (malloc grants site size).2 requests

theorem granted_append {grants : Grants} {l l' : List (Site × Nat)} :
    Granted grants (l ++ l') ↔ Granted grants l ∧ Granted (asked grants l) l' := by
  induction l generalizing grants with
  | nil => exact (iff_of_eq (true_and _)).symm
  | cons request l ih =>
    show _ ∧ Granted _ (l ++ l') ↔ (_ ∧ Granted _ l) ∧ Granted _ l'
    rw [ih, and_assoc]
    rfl

theorem Generous.granted {grants : Grants} (h : Generous grants) (requests : List (Site × Nat)) :
    Granted grants requests ∧ Generous (asked grants requests) := by
  induction requests generalizing grants with
  | nil => exact ⟨trivial, h⟩
  | cons request requests ih =>
    have hrest := ih (h.later (malloc_later grants request.1 request.2))
    exact ⟨⟨h request.1 0 request.2, hrest.1⟩, hrest.2⟩

/-- What an item with a value needs. -/
def valued_requests (key_len value_len : Nat) : List (Site × Nat) :=
  [(.item, 32), (.key, key_len + 1), (.value, value_len + 1)]

theorem extentions_loop_valued {raw key value rest : Bytes} {p len value_len : Nat}
    {self : httpp_encoding_t} (fuel : Nat) (hp : p ≤ raw.length)
    (hraw : raw.drop p = ch ';' :: (key ++ ch '=' :: rest)) (hkey : ch '=' ∉ key)
    (hlen : key.length + 2 < len)
    (hvalue : value_loop raw (p + 1 + key.length + 1) 0 (len - 1 - key.length - 1) = .ok value_len)
    (hdecode : decode_loop raw (p + 1 + key.length + 1 + value_len) (value_len + 1)
      (p + 1 + key.length + 1) 0 []
      value_len = .ok value)
    (hfits : value.length ≤ value_len)
    (hgranted : Granted self.grants (valued_requests key.length value_len)) :
    extentions_loop raw (fuel + 1) self p len =
      extentions_loop raw fuel
        { self with meta_read := self.meta_read ++ [stored (key, value)]
                    grants := asked self.grants (valued_requests key.length value_len) }
        (p + 1 + key.length + 1 + value_len) (len - 1 - key.length - 1 - value_len) := by
  have hin : p < raw.length := by
    have := congrArg List.length hraw
    rw [List.length_drop, List.length_cons] at this
    omega
  have hraw2 := drop_next hraw
  obtain ⟨hitem, hkeyed, hvalued, -⟩ := hgranted
  rw [extentions_loop, if_neg (by omega), read_drop hraw, ok_bind, if_neg (by simp), meta_new_null,
    if_pos hitem]
  simp only [key_loop_token hraw2 hkey (.inr ⟨show key.length < len - 1 by omega, _, rfl⟩), ok_bind,
    hkeyed, not_true, if_false, slice_drop (show p + 1 ≤ raw.length by omega) hraw2]
  rw [if_neg (by omega), read_drop (drop_behind hraw2), ok_bind, if_neg (by simp),
    if_neg (by omega)]
  simp only [hvalue, ok_bind, hvalued, not_true, if_false, hdecode]
  rw [push_ok (by omega), ok_bind]
  rfl

theorem extentions_loop_extension {raw rest : Bytes} {p : Nat} {self : httpp_encoding_t} {x : Pair}
    (fuel len : Nat) (hgen : Generous self.grants) (hx : Restored x) (hp : p ≤ raw.length)
    (hraw : raw.drop p = extension x ++ rest) (hlen : (extension x).length ≤ len) :
    ∃ grants, Generous grants ∧
      extentions_loop raw (fuel + 1) self p len =
        extentions_loop raw fuel
          { self with meta_read := self.meta_read ++ [stored x], grants := grants }
          (p + (extension x).length) (len - (extension x).length) := by
  have hsize := extension_length hx.ne_nil
  have hkey_eq : ch '=' ∉ x.1 := fun h => (hx.key.plain _ h).2.1 rfl
  have hraw1 : raw.drop p = ch ';' :: (x.1 ++ ch '=' :: (quoted x.2 ++ rest)) := by
    rw [hraw, extension, if_neg hx.ne_nil]
    simp
  have hraw4 := drop_next (drop_behind (drop_next hraw1))
  have hquoted : 2 + x.2.length ≤ (quoted x.2).length := by
    simp [quoted, escape_length]
    omega
  have hvalue : value_loop raw (p + 1 + x.1.length + 1) 0 (len - 1 - x.1.length - 1) =
      .ok (quoted x.2).length :=
    value_loop_quoted hraw4 hx.no_backslash (by omega)
  have hdecode (p' : Nat) :
      decode_loop raw p' ((quoted x.2).length + 1) (p + 1 + x.1.length + 1) 0 []
        (quoted x.2).length = .ok x.2 :=
    decode_loop_quoted hraw4 hx.no_backslash (by omega)
  obtain ⟨hgranted, hgen'⟩ := hgen.granted (valued_requests x.1.length (quoted x.2).length)
  refine ⟨_, hgen', ?_⟩
  rw [extentions_loop_valued fuel hp hraw1 hkey_eq (by omega) hvalue (hdecode _)
    (by omega) hgranted]
  congr 1
  · omega
  · omega

/-- The reader appends the items of the text. -/
theorem extentions_loop_extensions {raw rest : Bytes} {p fuel : Nat} {self : httpp_encoding_t}
    {ps : List Pair} (hgen : Generous self.grants) (hps : ∀ x ∈ ps, Restored x)
    (hp : p ≤ raw.length) (hraw : raw.drop p = extensions ps ++ rest)
    (hfuel : (extensions ps).length < fuel) :
    ∃ grants, extentions_loop raw fuel self p (extensions ps).length =
      .ok { self with meta_read := self.meta_read ++ ps.map stored, grants := grants } := by
  induction ps generalizing self p fuel with
  | nil =>
    obtain ⟨n, rfl⟩ : ∃ n, fuel = n + 1 := ⟨fuel - 1, by omega⟩
    refine ⟨self.grants, ?_⟩
    rw [extentions_loop, if_pos (by rfl)]
    simp
  | cons x ps ih =>
    have hcons : extensions (x :: ps) = extension x ++ extensions ps := rfl
    obtain ⟨n, rfl⟩ : ∃ n, fuel = n + 1 := ⟨fuel - 1, by omega⟩
    rw [hcons, List.append_assoc] at hraw
    rw [hcons, List.length_append] at hfuel ⊢
    have hx := hps x (by simp)
    have hsize := extension_length hx.ne_nil
    have hbehind : p + (extension x).length ≤ raw.length := by
      have := congrArg List.length hraw
      rw [List.length_drop, List.length_append] at this
      omega
    obtain ⟨grants, hgen', hstep⟩ :=
      extentions_loop_extension n ((extension x).length + (extensions ps).length)
        hgen hx hp hraw (by omega)
    rw [Nat.add_sub_cancel_left] at hstep
    let taken := { self with meta_read := self.meta_read ++ [stored x], grants := grants }
    have hgen_taken : Generous taken.grants := hgen'
    obtain ⟨grants', hrest⟩ := ih hgen_taken (fun y hy => hps y (List.mem_cons_of_mem x hy)) hbehind
      (drop_behind hraw) (show (extensions ps).length < n by omega)
    refine ⟨grants', ?_⟩
    rw [hstep, hrest]
    simp [taken]

theorem escape_nulFree {value : Bytes} (h : 0 ∉ value) : 0 ∉ escape value := by
  intro h0
  obtain ⟨c, hc, hin⟩ := List.mem_flatMap.mp h0
  split_ifs at hin
  · rcases List.mem_cons.mp hin with h1 | h1
    · exact absurd h1 (by decide)
    · rw [List.mem_singleton] at h1
      exact h (h1 ▸ hc)
  · rw [List.mem_singleton] at hin
    exact h (hin ▸ hc)

theorem extension_nulFree {p : Pair} (hkey : 0 ∉ p.1) (hvalue : 0 ∉ p.2) : 0 ∉ extension p := by
  have hsemi : (0 : Byte) ≠ ch ';' := by decide
  have heq : (0 : Byte) ≠ ch '=' := by decide
  have hquote : (0 : Byte) ≠ QUOTE := by decide
  unfold extension quoted
  split_ifs <;> simp [hkey, escape_nulFree hvalue, hsemi, heq, hquote]

theorem extensions_nulFree {ps : List Pair} (hps : ∀ p ∈ ps, 0 ∉ p.1 ∧ 0 ∉ p.2) :
    0 ∉ extensions ps := by
  intro h
  obtain ⟨p, hp, h0⟩ := List.mem_flatMap.mp h
  exact extension_nulFree (hps p hp).1 (hps p hp).2 h0

theorem written_nulFree {ps : List Pair} (hps : ∀ p ∈ ps, 0 ∉ p.1 ∧ 0 ∉ p.2) :
    written ps = extensions ps := by
  unfold written
  rw [List.takeWhile_eq_self_iff]
  intro b hb
  rw [bne_iff_ne]
  rintro rfl
  exact extensions_nulFree hps hb

/-- **Round trip.** What is written for metadata without backslashes and NULs is read as that
metadata, behind what had not been picked up before. -/
theorem extensions_round_trip {writer reader : httpp_encoding_t} {ps : List Pair}
    (hwriter : Generous writer.grants) (hreader : Generous reader.grants)
    (hmeta : List.Forall₂ Stands writer.meta_write ps) (hps : ∀ x ∈ ps, Restored x) :
    ∃ line writer', 0 ∉ line ∧
      enc_chunked_write_extensions writer =
      .ok (if ps = [] then none else some (line ++ [0]), writer') ∧
      ∀ pre post, ∃ reader',
        enc_chunked_read_extentions reader (pre ++ (line ++ post)) pre.length line.length =
        .ok reader' ∧
        reader'.meta_read = reader.meta_read ++ ps.map stored := by
  have hnul : 0 ∉ extensions ps :=
    extensions_nulFree fun p hp => ⟨(hps p hp).key.nulFree, (hps p hp).nulFree⟩
  have hread (pre post : Bytes) : ∃ reader',
      enc_chunked_read_extentions reader (pre ++ (extensions ps ++ post)) pre.length
        (extensions ps).length =
        .ok reader' ∧ reader'.meta_read = reader.meta_read ++ ps.map stored := by
    have hin : pre.length ≤ (pre ++ (extensions ps ++ post)).length := by simp
    obtain ⟨grants, hrun⟩ := extentions_loop_extensions hreader hps hin List.drop_left
      (Nat.lt_succ_self (extensions ps).length)
    exact ⟨_, hrun, rfl⟩
  by_cases hnil : ps = []
  · have hempty : writer.meta_write = [] := by
      rw [hnil, List.forall₂_nil_right_iff] at hmeta
      exact hmeta
    refine ⟨extensions ps, writer, hnul, ?_, hread⟩
    rw [if_pos hnil]
    unfold enc_chunked_write_extensions
    rw [if_pos hempty]
    rfl
  · have hsome : writer.meta_write ≠ [] := by
      intro hempty
      rw [hempty, List.forall₂_nil_left_iff] at hmeta
      exact hnil hmeta
    have hrun := enc_chunked_write_extensions_spec hsome hmeta
    rw [if_pos (hwriter _ _ _)] at hrun
    obtain ⟨writer', hwrite⟩ : ∃ writer', enc_chunked_write_extensions writer =
      .ok (some (extensions ps ++ [0]), writer') := ⟨_, hrun⟩
    refine ⟨extensions ps, writer', hnul, ?_, hread⟩
    rw [if_neg hnil]
    exact hwrite

/-- A song with a title that looks like two. -/
def song : List Pair := [(ascii "artist", ascii "X"), (ascii "title", ascii "\"A\";title=B\r\n")]

theorem song_restored : ∀ p ∈ song, Restored p := by
  intro p hp
  simp only [song, List.mem_cons, List.not_mem_nil, or_false] at hp
  rcases hp with rfl | rfl
  · exact ⟨⟨by decide, by decide +kernel⟩, by decide, by decide, by decide⟩
  · exact ⟨⟨by decide, by decide +kernel⟩, by decide, by decide, by decide⟩

/-- The metadata of a song goes to a reader that already has some. -/
theorem extensions_round_trip_song :
    let fresh := chunked_encoding fun _ _ _ => true
    let reader := { fresh with meta_read := [stored (ascii "url", ascii "/")] }
    ∃ line writer', 0 ∉ line ∧
      enc_chunked_write_extensions { fresh with meta_write := song.map stored } =
        .ok (if song = [] then none else some (line ++ [0]), writer') ∧
      ∀ pre post, ∃ reader',
        enc_chunked_read_extentions reader (pre ++ (line ++ post)) pre.length line.length =
          .ok reader' ∧
        reader'.meta_read = reader.meta_read ++ song.map stored := by
  have hgen : Generous (chunked_encoding fun _ _ _ => true).grants :=
    Generous.later (fun _ _ _ => rfl) (malloc_later _ .encoding 152)
  exact extensions_round_trip hgen hgen (stored_stand fun p hp =>
    (song_restored p hp).key.nulFree) song_restored

end Encoding
