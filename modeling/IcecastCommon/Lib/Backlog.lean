import Mathlib.Data.List.Basic

/-!
# A queue that is served once a tick

Jobs wait in order, and each becomes ready at a time. A tick at time `e` serves the first job
if it is ready, and no other.
-/

namespace Lib

/-- The jobs that wait after a tick, by the times at which they are ready. -/
def serve : List Nat → Nat → List Nat
  | [], _ => []
  | h :: hs, e => if h ≤ e then hs else h :: hs

/-- The jobs that wait after some ticks. -/
def backlog (jobs ticks : List Nat) : List Nat := ticks.foldl serve jobs

@[simp] theorem backlog_nil (ticks : List Nat) : backlog [] ticks = [] := by
  induction ticks with
  | nil => rfl
  | cons e es ih => exact ih

theorem backlog_cons (jobs : List Nat) (e : Nat) (es : List Nat) :
    backlog jobs (e :: es) = backlog (serve jobs e) es := rfl

theorem backlog_concat (jobs es : List Nat) (e : Nat) :
    backlog jobs (es ++ [e]) = serve (backlog jobs es) e :=
  List.foldl_concat ..

theorem serve_of_le {h e : Nat} (hs : List Nat) (hle : h ≤ e) : serve (h :: hs) e = hs := if_pos hle

theorem serve_of_lt {h e : Nat} (hs : List Nat) (hlt : e < h) : serve (h :: hs) e = h :: hs :=
  if_neg (Nat.not_le.mpr hlt)

/-- Each job leaves ticks enough for itself and those after it. -/
def InTime (jobs ticks : List Nat) : Prop :=
  ∀ i (h : i < jobs.length), jobs.length - i ≤ ticks.countP fun e => jobs[i] ≤ e

instance (jobs ticks : List Nat) : Decidable (InTime jobs ticks) := by
  unfold InTime
  infer_instance

theorem countP_all {ticks : List Nat} {a : Nat} (h : ∀ e ∈ ticks, a ≤ e) :
    ticks.countP (fun e => a ≤ e) = ticks.length := by
  rw [List.countP_eq_length]
  intro e he
  exact decide_eq_true (h e he)

theorem inTime_cons_late {jobs ticks : List Nat} {e : Nat} (h : ∀ j ∈ jobs, e < j) :
    InTime jobs (e :: ticks) ↔ InTime jobs ticks := by
  unfold InTime
  refine forall_congr' fun i => forall_congr' fun hi => ?_
  rw [List.countP_cons_of_neg]
  have := h _ (List.getElem_mem hi)
  simpa using this

theorem inTime_cons_served {jobs ticks : List Nat} {h e : Nat} (hle : h ≤ e)
    (hjobs : ∀ j ∈ jobs, h ≤ j) (hticks : ∀ t ∈ ticks, e ≤ t) :
    InTime (h :: jobs) (e :: ticks) ↔ InTime jobs ticks := by
  have hall : ticks.countP (fun t => h ≤ t) = ticks.length :=
    countP_all fun t ht => Nat.le_trans hle (hticks t ht)
  constructor
  · intro hin i hi
    have h0 := hin 0 (Nat.succ_pos _)
    have hi' := hin (i + 1) (Nat.succ_lt_succ hi)
    simp only [List.length_cons, List.getElem_cons_zero, List.getElem_cons_succ] at h0 hi'
    rw [List.countP_cons_of_pos (by simpa using hle), hall] at h0
    by_cases hlate : e < jobs[i]
    · rw [List.countP_cons_of_neg (by simpa using hlate)] at hi'
      omega
    · rw [countP_all fun t ht => Nat.le_trans (Nat.not_lt.mp hlate) (hticks t ht)]
      omega
  · intro hin i hi
    cases i with
    | zero =>
      simp only [List.length_cons, List.getElem_cons_zero]
      rw [List.countP_cons_of_pos (by simpa using hle), hall]
      cases jobs with
      | nil => simp
      | cons j jobs =>
        have h0 := hin 0 (Nat.succ_pos _)
        have := List.countP_le_length (p := fun t => decide ((j :: jobs)[0] ≤ t)) (l := ticks)
        omega
    | succ i =>
      have hi' : i < jobs.length := Nat.lt_of_succ_lt_succ hi
      simp only [List.length_cons, List.getElem_cons_succ]
      have := hin i hi'
      rw [List.countP_cons]
      omega

/-- **No backlog.** All jobs are served exactly when they are in time. -/
theorem backlog_eq_nil_iff {jobs ticks : List Nat} (hjobs : jobs.Pairwise (· ≤ ·))
    (hticks : ticks.Pairwise (· ≤ ·)) : backlog jobs ticks = [] ↔ InTime jobs ticks := by
  induction ticks generalizing jobs with
  | nil =>
    constructor
    · intro h i hi
      rw [show jobs = [] from h] at hi
      exact absurd hi (Nat.not_lt_zero i)
    · intro h
      cases jobs with
      | nil => rfl
      | cons j jobs => exact absurd (h 0 (Nat.succ_pos _)) (by simp)
  | cons e ticks ih =>
    obtain ⟨hlate, hticks⟩ := List.pairwise_cons.mp hticks
    cases jobs with
    | nil => exact iff_of_true (backlog_nil _) fun i hi => absurd hi (Nat.not_lt_zero i)
    | cons h hs =>
      obtain ⟨hfirst, hhs⟩ := List.pairwise_cons.mp hjobs
      rw [backlog_cons]
      rcases Nat.lt_or_ge e h with hlt | hle
      · rw [serve_of_lt hs hlt, ih hjobs hticks, inTime_cons_late]
        intro j hj
        rcases List.mem_cons.mp hj with rfl | hj
        · exact hlt
        · exact Nat.lt_of_lt_of_le hlt (hfirst j hj)
      · rw [serve_of_le hs hle, ih hhs hticks, inTime_cons_served hle hfirst hlate]

/-- Some job leaves no tick to spare. -/
def NoSlack (jobs ticks : List Nat) : Prop :=
  ∃ i, ∃ h : i < jobs.length, (ticks.countP fun e => jobs[i] ≤ e) ≤ jobs.length - i

/-- **Just in time.** The last job is served by the last tick. -/
theorem backlog_last_iff {jobs ticks : List Nat} {e : Nat} (hjobs : jobs.Pairwise (· ≤ ·))
    (hticks : (ticks ++ [e]).Pairwise (· ≤ ·)) (hready : ∀ j ∈ jobs, j ≤ e) :
    (backlog jobs (ticks ++ [e]) = [] ∧ backlog jobs ticks ≠ []) ↔
      InTime jobs (ticks ++ [e]) ∧ NoSlack jobs (ticks ++ [e]) := by
  have hinit : ticks.Pairwise (· ≤ ·) := (List.pairwise_append.mp hticks).1
  rw [backlog_eq_nil_iff hjobs hticks, ne_eq, backlog_eq_nil_iff hjobs hinit]
  refine and_congr_right fun _ => ?_
  unfold InTime NoSlack
  simp only [not_forall]
  refine exists_congr fun i => exists_congr fun hi => ?_
  have hone :
      (ticks ++ [e]).countP (fun t => jobs[i] ≤ t) = ticks.countP (fun t => jobs[i] ≤ t) + 1 := by
    rw [List.countP_append]
    have := hready _ (List.getElem_mem hi)
    simp [this]
  rw [hone, Nat.not_le]
  exact Iff.rfl

end Lib
