import IcecastCommon.Encoding.Reads
import IcecastCommon.Lib.Backlog

/-!
# How far the decoder comes

The decoder reads at most one size line in a call that gets bytes, and none in a call that gets
no bytes. So a message is decoded to its end only if enough fragments come after its size lines.
-/

namespace Encoding

open Lib

variable {σ : Type}

/-! ## Positions in the stream -/

/-- Where the size lines end. -/
def lineEnds (pos : Nat) : List Chunk → List Nat
  | [] => []
  | c :: ls =>
    (pos + c.digits.length + 2) :: lineEnds (pos + c.digits.length + 2 + c.body.length + 2) ls

/-- Where the fragments end. -/
def fragmentEnds (pos : Nat) : List Bytes → List Nat
  | [] => []
  | f :: fs => (pos + f.length) :: fragmentEnds (pos + f.length) fs

theorem text_cons_length (c : Chunk) (ls : List Chunk) :
    (text [] (c :: ls)).length = c.digits.length + 2 + c.body.length + 2 + (text [] ls).length := by
  simp [text, crlf]
  omega

theorem lineEnds_bounds {pos h : Nat} {ls : List Chunk} (hmem : h ∈ lineEnds pos ls) :
    pos ≤ h ∧ h ≤ pos + (text [] ls).length := by
  induction ls generalizing pos with
  | nil => simp [lineEnds] at hmem
  | cons c ls ih =>
    rw [text_cons_length]
    rcases List.mem_cons.mp hmem with rfl | hmem
    · omega
    · have := ih hmem
      omega

theorem lineEnds_sorted (pos : Nat) (ls : List Chunk) : (lineEnds pos ls).Pairwise (· ≤ ·) := by
  induction ls generalizing pos with
  | nil => exact List.Pairwise.nil
  | cons c ls ih =>
    refine List.Pairwise.cons (fun h hmem => ?_) (ih _)
    have := (lineEnds_bounds hmem).1
    omega

theorem lineEnds_eq_nil {pos : Nat} {ls : List Chunk} : lineEnds pos ls = [] ↔ ls = [] := by
  cases ls <;> simp [lineEnds]

theorem fragmentEnds_concat (pos : Nat) (fs : List Bytes) (f : Bytes) :
    fragmentEnds pos (fs ++ [f]) = fragmentEnds pos fs ++ [pos + fs.flatten.length + f.length] := by
  induction fs generalizing pos with
  | nil => simp [fragmentEnds]
  | cons g fs ih =>
    rw [List.cons_append, fragmentEnds, fragmentEnds, ih, List.cons_append, List.flatten_cons,
      List.length_append]
    congr 3
    omega

theorem le_of_mem_fragmentEnds {pos e : Nat} {fs : List Bytes} (h : e ∈ fragmentEnds pos fs) :
    pos ≤ e := by
  induction fs generalizing pos with
  | nil => simp [fragmentEnds] at h
  | cons f fs ih =>
    rcases List.mem_cons.mp h with rfl | h
    · omega
    · have := ih h
      omega

theorem fragmentEnds_sorted (pos : Nat) (fs : List Bytes) :
    (fragmentEnds pos fs).Pairwise (· ≤ ·) := by
  induction fs generalizing pos with
  | nil => exact List.Pairwise.nil
  | cons f fs ih => exact List.Pairwise.cons (fun e he => le_of_mem_fragmentEnds he) (ih _)

theorem serve_lineEnds {total r : Nat} {ls : List Chunk} (hr : r ≤ total)
    (hls : (text [] ls).length ≤ total) :
    serve (lineEnds (total - (text [] ls).length) ls) (total - r) =
      lineEnds (total - (text [] (advance [] ls r)).length) (advance [] ls r) := by
  cases ls with
  | nil => rfl
  | cons c tl =>
    have hbody :
        (c.body ++ crlf ++ text [] tl).length = c.body.length + 2 + (text [] tl).length := by
      simp [crlf]
      omega
    rw [text_cons_length] at hls ⊢
    rw [lineEnds]
    by_cases hle : r ≤ (c.body ++ crlf ++ text [] tl).length
    · rw [show advance [] (c :: tl) r = tl from if_pos hle, serve_of_le _ (by omega)]
      congr 1
      omega
    · rw [show advance [] (c :: tl) r = c :: tl from if_neg hle, serve_of_lt _ (by omega),
        text_cons_length]
      rfl

variable {cb : ReadCallback σ} {left : σ → Bytes} {handed : σ → List Bytes}

/-! ## A session and its fragments -/

/-- The lines that the decoder has still to read are the backlog of the fragments so far. -/
structure Tracked (left : σ → Bytes) (handed : σ → List Bytes) (m : Message) (x : Session σ)
    (ls : List Chunk) (owed d : Bytes) : Prop where
  follows : Follows left True [] m x ls owed d
  sum : (handed x.user).flatten.length + (left x.user).length = (m.text []).length
  fits : (text [] ls).length ≤ (m.text []).length
  lines : backlog (lineEnds 0 m.lines) (fragmentEnds 0 (handed x.user)) =
    lineEnds ((m.text []).length - (text [] ls).length) ls

/-- A call that got no bytes. -/
structure Still (left : σ → Bytes) (handed : σ → List Bytes) (x x' : Session σ)
    (d d' : Bytes) : Prop where
  same_left : left x'.user = left x.user
  same_handed : handed x'.user = handed x.user
  same_eof : x'.enc.bytes_till_eof = x.enc.bytes_till_eof
  /-- It took decoded bytes, or nothing was left to ask for. -/
  less : d'.length < d.length ∨ (left x.user = [] ∧ d' = [])

/-- A call that got a fragment. -/
structure Took (left : σ → Bytes) (handed : σ → List Bytes) (x x' : Session σ) (ls ls' : List Chunk)
    (d' : Bytes) : Prop where
  fragment : ∃ f, f ≠ [] ∧ left x.user = f ++ left x'.user ∧ handed x'.user = handed x.user ++ [f]
  ended : left x'.user = [] → (x'.enc.bytes_till_eof = 0 ↔ ls ≠ [] ∧ ls' = [])
  drained : ls' = [] → d' = []

theorem length_advance_le {ls : List Chunk} {r : Nat} :
    (text [] (advance [] ls r)).length ≤ (text [] ls).length := by
  cases ls with
  | nil => exact le_rfl
  | cons c tl =>
    by_cases hr : r ≤ (c.body ++ crlf ++ text [] tl).length
    · rw [show advance [] (c :: tl) r = tl from if_pos hr, text_cons_length]
      omega
    · rw [show advance [] (c :: tl) r = c :: tl from if_neg hr]

theorem left_nil_of_eof {enc : httpp_encoding_t} {rest owed d : Bytes} {ls : List Chunk}
    (h : At True [] enc rest ls owed d) (heof : enc.bytes_till_eof = 0) : rest = [] := by
  cases h.phase with
  | header more eof => omega
  | body eof => split at eof <;> omega
  | stray eof => omega
  | eof _ _ _ none_left => exact (none_left trivial rfl).2

theorem tracked_step (hcb : Fragments cb left handed) {m : Message} {x : Session σ}
    {ls : List Chunk} {owed d : Bytes} (room : Room) (h : Tracked left handed m x ls owed d) :
    ∃ x' ls' owed' d', read_call cb x room = .ok x' ∧ x.out <+: x'.out ∧
      Tracked left handed m x' ls' owed' d' ∧
      ((ls' = ls ∧ Still left handed x x' d d') ∨ Took left handed x x' ls ls' d') := by
  obtain ⟨hfollows, hsum, hfits, hlines⟩ := h
  obtain ⟨x', ls', owed', d', hcall, hprefix, hfollows', hcase⟩ :=
    read_call_step hcb.feeds room hfollows (hfollows.1.generous trivial).not_refused
  refine ⟨x', ls', owed', d', hcall, hprefix, ?_⟩
  rcases hcase with ⟨huser, heof, rfl, hless⟩ | ⟨hasked, hmoved, hquiet⟩
  · refine ⟨⟨hfollows', by rwa [huser], hfits, by rwa [huser]⟩, .inl ⟨rfl, ?_⟩⟩
    exact ⟨by rw [huser], by rw [huser], heof, .inl hless⟩
  · rcases hasked with ⟨-, hno⟩ | ⟨n, hn, huser⟩
    · exact absurd trivial hno
    by_cases hleft : left x.user = []
    · -- The backend has nothing more.
      obtain ⟨-, -, hsame, hhanded⟩ := hcb.quiet x.user n (.inr hleft)
      rw [← huser] at hsame hhanded
      cases hmoved with
      | fragment some took =>
        rw [hleft] at took
        exact absurd (List.append_eq_nil_iff.mp took.symm).1 some
      | quiet _ kept =>
        refine ⟨⟨hfollows', by rw [hhanded, hsame]; exact hsum, hfits,
          by rw [hhanded]; exact hlines⟩, .inl ⟨rfl, ?_⟩⟩
        exact ⟨hsame, hhanded, kept, .inr ⟨hleft, hquiet (.inl hsame)⟩⟩
    · have hpos : 0 < n := Nat.pos_of_ne_zero fun h0 => hleft (left_nil_of_eof hfollows.1 (hn h0))
      obtain ⟨hsome, -, -, htook, hhanded⟩ := hcb.gives x.user n hpos hleft
      rw [← huser] at htook hhanded
      cases hmoved with
      | quiet same => rw [same] at htook; exact absurd (List.self_eq_append_left.mp htook) hsome
      | fragment some took ended =>
        refine ⟨⟨hfollows', ?_, length_advance_le.trans hfits, ?_⟩,
          .inr ⟨⟨_, hsome, htook, hhanded⟩, ended trivial rfl, ?_⟩⟩
        · rw [← hsum, htook, hhanded]
          simp
          omega
        · have hlen := congrArg List.length htook
          rw [List.length_append] at hlen
          rw [hhanded, fragmentEnds_concat, backlog_concat, hlines,
            show 0 + (handed x.user).flatten.length + ((cb x.user n).1.2).length =
              (m.text []).length - (left x'.user).length by omega]
          exact serve_lineEnds (by omega) hfits
        · exact fun hlast => hquiet (.inr hlast)

/-- The session after a number of calls with the given buffers. -/
def after (cb : ReadCallback σ) (x : Session σ) (rooms : Nat → Room) (n : Nat) : C (Session σ) :=
  reads cb x ((List.range n).map rooms)

theorem after_zero (x : Session σ) (rooms : Nat → Room) : after cb x rooms 0 = .ok x := rfl

theorem after_succ {x y : Session σ} {rooms : Nat → Room} {n : Nat}
    (h : after cb x rooms n = .ok y) :
    after cb x rooms (n + 1) = read_call cb y (rooms n) := by
  unfold after reads at h ⊢
  rw [List.range_succ, List.map_append, List.foldlM_append, h]
  exact bind_pure (m := C) _

theorem Fresh.tracked {grants : Grants} {enc : httpp_encoding_t} (hnew : Fresh grants enc)
    (hgen : Generous grants) (m : Message) {s : σ} (hs : left s = m.text []) (hh : handed s = []) :
    Tracked left handed m ⟨enc, s, []⟩ m.lines [] [] := by
  refine ⟨hnew.follows m (fun _ => hgen) hs, ?_, le_rfl, ?_⟩
  · rw [hh, hs]
    simp
  · rw [hh, Message.text, Nat.sub_self]
    rfl

section Session

variable {m : Message} {x0 : Session σ} {rooms : Nat → Room}

theorem tracked_drains (hcb : Fragments cb left handed) {x : Session σ} {ls : List Chunk}
    {owed d : Bytes} {n : Nat} (hx : after cb x0 rooms n = .ok x)
    (h : Tracked left handed m x ls owed d) :
    ∃ k y ls' owed', after cb x0 rooms (n + k) = .ok y ∧ x.out <+: y.out ∧ left y.user = [] ∧
      Tracked left handed m y ls' owed' [] ∧
      (left x.user = [] → handed y.user = handed x.user) := by
  by_cases hdone : left x.user = [] ∧ d = []
  · obtain ⟨hleft, rfl⟩ := hdone
    exact ⟨0, x, ls, owed, hx, List.prefix_rfl, hleft, h, fun _ => rfl⟩
  · obtain ⟨y, ls', owed', d', hcall, hprefix, hy, hcase⟩ := tracked_step hcb (rooms n) h
    have hy1 : after cb x0 rooms (n + 1) = .ok y := (after_succ hx).trans hcall
    have hless : (left y.user).length < (left x.user).length ∨
        (left y.user).length = (left x.user).length ∧ d'.length < d.length := by
      rcases hcase with ⟨-, hstill⟩ | htook
      · right
        refine ⟨by rw [hstill.same_left], ?_⟩
        rcases hstill.less with hlt | ⟨hleft, rfl⟩
        · exact hlt
        · exact List.length_pos_iff.mpr fun hd => hdone ⟨hleft, hd⟩
      · left
        obtain ⟨f, hf, htook, -⟩ := htook.fragment
        have := List.length_pos_iff.mpr hf
        rw [htook, List.length_append]
        omega
    have hsame : left x.user = [] → left y.user = [] ∧ handed y.user = handed x.user := by
      intro hnil
      rcases hcase with ⟨-, hstill⟩ | htook
      · exact ⟨hstill.same_left.trans hnil, hstill.same_handed⟩
      · obtain ⟨f, hf, htook, -⟩ := htook.fragment
        rw [hnil] at htook
        exact absurd (List.append_eq_nil_iff.mp htook.symm).1 hf
    obtain ⟨k, z, ls'', owed'', hz, hprefix', hleft, hlast, hkept⟩ := tracked_drains hcb hy1 hy
    refine ⟨k + 1, z, ls'', owed'', ?_, hprefix.trans hprefix', hleft, hlast, fun hnil => ?_⟩
    · rwa [show n + (k + 1) = n + 1 + k by omega]
    · exact (hkept (hsame hnil).1).trans (hsame hnil).2
termination_by ((left x.user).length, d.length)
decreasing_by
  simp only [Prod.lex_def]
  exact hless

theorem tracked_stays (hcb : Fragments cb left handed) {x : Session σ} {ls : List Chunk}
    {owed : Bytes} {n : Nat} (hx : after cb x0 rooms n = .ok x)
    (h : Tracked left handed m x ls owed []) (hleft : left x.user = []) (k : Nat) :
    ∃ y owed', after cb x0 rooms (n + k) = .ok y ∧ Tracked left handed m y ls owed' [] ∧
      left y.user = [] ∧
      y.enc.bytes_till_eof = x.enc.bytes_till_eof ∧ handed y.user = handed x.user := by
  induction k with
  | zero => exact ⟨x, owed, hx, h, hleft, rfl, rfl⟩
  | succ k ih =>
    obtain ⟨y, owed', hy, hytrack, hyleft, hyeof, hyhanded⟩ := ih
    obtain ⟨z, ls', owed'', d', hcall, -, hz, hcase⟩ := tracked_step hcb (rooms (n + k)) hytrack
    have hz1 : after cb x0 rooms (n + (k + 1)) = .ok z := (after_succ hy).trans hcall
    rcases hcase with ⟨rfl, hstill⟩ | htook
    · have hd : d' = [] := by
        rcases hstill.less with hlt | ⟨-, hd⟩
        · exact absurd hlt (Nat.not_lt_zero _)
        · exact hd
      subst hd
      exact ⟨z, owed'', hz1, hz, hstill.same_left.trans hyleft, hstill.same_eof.trans hyeof,
        hstill.same_handed.trans hyhanded⟩
    · obtain ⟨f, hf, htook, -⟩ := htook.fragment
      rw [hyleft] at htook
      exact absurd (List.append_eq_nil_iff.mp htook.symm).1 hf

theorem tracked_handed (hcb : Fragments cb left handed) {x y : Session σ} {ls ls' : List Chunk}
    {owed owed' : Bytes} {i j : Nat} (hx : after cb x0 rooms i = .ok x)
    (h : Tracked left handed m x ls owed []) (hxleft : left x.user = [])
    (hy : after cb x0 rooms j = .ok y) (h' : Tracked left handed m y ls' owed' [])
    (hyleft : left y.user = []) : handed y.user = handed x.user := by
  rcases Nat.le_total i j with hij | hji
  · obtain ⟨z, -, hz, -, -, -, hsame⟩ := tracked_stays hcb hx h hxleft (j - i)
    rw [Nat.add_sub_cancel' hij, hy] at hz
    rw [Except.ok.inj hz, hsame]
  · obtain ⟨z, -, hz, -, -, -, hsame⟩ := tracked_stays hcb hy h' hyleft (i - j)
    rw [Nat.add_sub_cancel' hji, hx] at hz
    rw [Except.ok.inj hz, hsame]

theorem tracked_always (hcb : Fragments cb left handed)
    (h0 : Tracked left handed m x0 m.lines [] []) (rooms : Nat → Room) (n : Nat) :
    ∃ x ls owed d, after cb x0 rooms n = .ok x ∧ Tracked left handed m x ls owed d := by
  induction n with
  | zero => exact ⟨x0, _, _, _, rfl, h0⟩
  | succ n ih =>
    obtain ⟨x, ls, owed, d, hx, h⟩ := ih
    obtain ⟨y, ls', owed', d', hcall, -, hy, -⟩ := tracked_step hcb (rooms n) h
    exact ⟨y, ls', owed', d', (after_succ hx).trans hcall, hy⟩

theorem Tracked.out {x : Session σ} {ls : List Chunk} {owed : Bytes}
    (h : Tracked left handed m x ls owed []) (hleft : left x.user = []) :
    x.out ++ bodies ls = bodies m.chunks := by
  obtain ⟨hat, hout⟩ := h.follows
  have howed : owed = [] := by
    have hphase := hat.phase
    rw [hleft] at hphase
    cases hphase with
    | header => rfl
    | stray => rfl
    | eof => rfl
    | body _ _ _ _ coming _ direct =>
      by_contra hne
      rw [direct hne] at coming
      simp [crlf] at coming
  rw [← hout, howed]
  simp

end Session

end Encoding
