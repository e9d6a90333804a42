import Mathlib.Logic.Function.Basic
import Mathlib.Data.Option.Basic

/-!
# Files

Files that have names and are written through handles. A name leads to a file and so does a handle.
Renaming moves the name and leaves the handles where they are.
-/

namespace Lib

/-- The files are numbers below `next`. -/
structure Disk (ν φ β : Type) where
  files : ν → Option Nat
  handles : φ → Option Nat
  data : Nat → List β
  next : Nat

namespace Disk

variable {ν φ β : Type}

section Operations

variable [DecidableEq ν] [DecidableEq φ] (d : Disk ν φ β)

def content (name : ν) : Option (List β) := (d.files name).map d.data

/-- A name without a file gets an empty one. -/
def create (name : ν) : Disk ν φ β :=
  match d.files name with
  | some _ => d
  | none =>
    { d with
      files := Function.update d.files name (some d.next)
      data := Function.update d.data d.next []
      next := d.next + 1 }

def openAppend (name : ν) (f : φ) : Disk ν φ β :=
  { d.create name with handles := Function.update d.handles f ((d.create name).files name) }

def close (f : φ) : Disk ν φ β := { d with handles := Function.update d.handles f none }

/-- A file that had the name `b` loses it. -/
def rename (a b : ν) : Disk ν φ β :=
  match d.files a with
  | none => d
  | some i => { d with files := Function.update (Function.update d.files a none) b (some i) }

def append (f : φ) (text : List β) : Disk ν φ β :=
  match d.handles f with
  | none => d
  | some i => { d with data := Function.update d.data i (d.data i ++ text) }

end Operations

/-- No file has two names. -/
structure Sound (d : Disk ν φ β) : Prop where
  apart : ∀ a b i, d.files a = some i → d.files b = some i → a = b
  files_lt : ∀ a i, d.files a = some i → i < d.next
  handles_lt : ∀ f i, d.handles f = some i → i < d.next

/-- What is written through `f` comes to `name`. -/
def Leads (d : Disk ν φ β) (f : φ) (name : ν) : Prop :=
  ∃ i, d.handles f = some i ∧ d.files name = some i

variable {d : Disk ν φ β} {a b c : ν} {f g : φ}

/-- A handle leads to one name. -/
theorem Sound.leads_unique (h : d.Sound) (ha : d.Leads f a) (hb : d.Leads f b) : a = b := by
  obtain ⟨i, hi, hfa⟩ := ha
  obtain ⟨j, hj, hfb⟩ := hb
  obtain rfl := Option.some.inj (hi.symm.trans hj)
  exact h.apart a b i hfa hfb

theorem update_eq_some {α : Type} [DecidableEq α] {m : α → Option Nat} {x y : α}
    {v : Option Nat} {i : Nat} (h : Function.update m x v y = some i) :
    y = x ∧ v = some i ∨ y ≠ x ∧ m y = some i := by
  by_cases hyx : y = x
  · subst hyx
    rw [Function.update_self] at h
    exact .inl ⟨rfl, h⟩
  · rw [Function.update_of_ne hyx] at h
    exact .inr ⟨hyx, h⟩

/-! ## Closing -/

section Close

variable [DecidableEq φ]

theorem Sound.close (h : d.Sound) (f : φ) : (d.close f).Sound := by
  refine ⟨h.apart, h.files_lt, fun g i hg => ?_⟩
  rcases update_eq_some hg with ⟨-, hnone⟩ | ⟨-, hg⟩
  · cases hnone
  · exact h.handles_lt g i hg

theorem leads_close (hlead : (d.close f).Leads g a) : d.Leads g a := by
  obtain ⟨i, hi, ha⟩ := hlead
  rcases update_eq_some hi with ⟨-, hnone⟩ | ⟨-, hi⟩
  · cases hnone
  · exact ⟨i, hi, ha⟩

theorem leads_close_ne (hg : g ≠ f) (hlead : d.Leads g a) : (d.close f).Leads g a := by
  obtain ⟨i, hi, ha⟩ := hlead
  refine ⟨i, ?_, ha⟩
  show Function.update d.handles f none g = some i
  rw [Function.update_of_ne hg, hi]

end Close

/-! ## Opening -/

section Open

variable [DecidableEq ν]

theorem create_of_some {i : Nat} (hname : d.files a = some i) : d.create a = d := by
  unfold create
  rw [hname]

theorem create_of_none (hname : d.files a = none) :
    d.create a = { d with
      files := Function.update d.files a (some d.next)
      data := Function.update d.data d.next []
      next := d.next + 1 } := by
  unfold create
  rw [hname]

theorem Sound.create (h : d.Sound) (a : ν) : (d.create a).Sound := by
  cases hname : d.files a with
  | some i => rwa [create_of_some hname]
  | none =>
    rw [create_of_none hname]
    refine ⟨fun b c i hb hc => ?_, fun b i hb => ?_, fun g i hg =>
      Nat.lt_succ_of_lt (h.handles_lt g i hg)⟩
    · rcases update_eq_some hb with ⟨rfl, hi⟩ | ⟨-, hold⟩
      · rcases update_eq_some hc with ⟨rfl, -⟩ | ⟨-, hold'⟩
        · rfl
        · exact absurd (h.files_lt c i hold') (by simp [← Option.some.inj hi])
      · rcases update_eq_some hc with ⟨rfl, hi⟩ | ⟨-, hold'⟩
        · exact absurd (h.files_lt b i hold) (by simp [← Option.some.inj hi])
        · exact h.apart b c i hold hold'
    · rcases update_eq_some hb with ⟨-, hi⟩ | ⟨-, hold⟩
      · exact Option.some.inj hi ▸ Nat.lt_succ_self _
      · exact Nat.lt_succ_of_lt (h.files_lt b i hold)

theorem files_create (d : Disk ν φ β) (a : ν) : ∃ i, (d.create a).files a = some i := by
  cases hname : d.files a with
  | some i => exact ⟨i, by rw [create_of_some hname, hname]⟩
  | none => exact ⟨d.next, by simp [create_of_none hname]⟩

theorem content_create (d : Disk ν φ β) (a : ν) :
    (d.create a).content a = some ((d.content a).getD []) := by
  cases hname : d.files a with
  | some i => simp [create_of_some hname, content, hname]
  | none => simp [create_of_none hname, content, hname]

theorem content_create_ne (h : d.Sound) (hb : b ≠ a) : (d.create a).content b = d.content b := by
  cases hname : d.files a with
  | some i => rw [create_of_some hname]
  | none =>
    rw [create_of_none hname]
    unfold content
    dsimp only
    rw [Function.update_of_ne hb]
    cases hfile : d.files b with
    | none => rfl
    | some i =>
      have hlt := h.files_lt b i hfile
      rw [Option.map_some, Option.map_some, Function.update_of_ne (by omega)]

/-- No handle leads to a file that is new. -/
theorem leads_create (h : d.Sound) : (d.create a).Leads f b ↔ d.Leads f b := by
  cases hname : d.files a with
  | some i => rw [create_of_some hname]
  | none =>
    rw [create_of_none hname]
    constructor
    · rintro ⟨i, hi, hb⟩
      rcases update_eq_some hb with ⟨-, hnext⟩ | ⟨-, hb⟩
      · exact absurd (h.handles_lt f i hi) (by simp [← Option.some.inj hnext])
      · exact ⟨i, hi, hb⟩
    · rintro ⟨i, hi, hb⟩
      refine ⟨i, hi, ?_⟩
      rw [← hb]
      refine Function.update_of_ne ?_ _ _
      rintro rfl
      rw [hname] at hb
      cases hb

variable [DecidableEq φ]

theorem Sound.openAppend (h : d.Sound) (a : ν) (f : φ) : (d.openAppend a f).Sound := by
  have hc := h.create a
  refine ⟨hc.apart, hc.files_lt, fun g i hg => ?_⟩
  rcases update_eq_some hg with ⟨-, hi⟩ | ⟨-, hg⟩
  · exact hc.files_lt a i hi
  · cases hname : d.files a with
    | some j =>
      have hlt := h.handles_lt g i hg
      rwa [← create_of_some hname] at hlt
    | none =>
      have hlt := Nat.lt_succ_of_lt (h.handles_lt g i hg)
      simpa [Disk.openAppend, create_of_none hname] using hlt

theorem openAppend_leads (d : Disk ν φ β) (a : ν) (f : φ) : (d.openAppend a f).Leads f a := by
  obtain ⟨i, hi⟩ := d.files_create a
  exact ⟨i, (Function.update_self f _ d.handles).trans hi, hi⟩

/-- Another handle leads where it did. -/
theorem leads_openAppend (h : d.Sound) (hg : g ≠ f) :
    (d.openAppend a f).Leads g b ↔ d.Leads g b := by
  rw [← leads_create h (a := a)]
  have hhandles : (d.create a).handles = d.handles := by
    unfold create
    cases d.files a <;> rfl
  unfold Leads Disk.openAppend
  simp only [Function.update_of_ne hg, hhandles]

theorem content_openAppend (d : Disk ν φ β) (a : ν) (f : φ) :
    (d.openAppend a f).content a = some ((d.content a).getD []) := d.content_create a

theorem content_openAppend_ne (h : d.Sound) (hb : b ≠ a) (f : φ) :
    (d.openAppend a f).content b = d.content b :=
  content_create_ne h hb

end Open

/-! ## Renaming -/

section Rename

variable [DecidableEq ν]

theorem rename_of_none (hfile : d.files a = none) (b : ν) : d.rename a b = d := by
  unfold rename
  rw [hfile]

theorem rename_of_some {i : Nat} (hfile : d.files a = some i) (b : ν) :
    d.rename a b =
      { d with files := Function.update (Function.update d.files a none) b (some i) } := by
  unfold rename
  rw [hfile]

/-- A name behind a renaming is the new one, or was there. -/
theorem renamed_eq_some {i j : Nat}
    (h : Function.update (Function.update d.files a none) b (some i) c = some j) :
    c = b ∧ i = j ∨ c ≠ a ∧ d.files c = some j := by
  rcases update_eq_some h with ⟨hcb, hij⟩ | ⟨-, hc⟩
  · exact .inl ⟨hcb, Option.some.inj hij⟩
  · rcases update_eq_some hc with ⟨-, hnone⟩ | hold
    · cases hnone
    · exact .inr hold

theorem Sound.rename (h : d.Sound) (a b : ν) : (d.rename a b).Sound := by
  cases hfile : d.files a with
  | none => rwa [rename_of_none hfile]
  | some i =>
    rw [rename_of_some hfile]
    refine ⟨fun c c' j hc hc' => ?_, fun c j hc => ?_, h.handles_lt⟩
    · rcases renamed_eq_some hc with ⟨rfl, hij⟩ | ⟨hca, hold⟩
      · rcases renamed_eq_some hc' with ⟨rfl, -⟩ | ⟨hca', hold'⟩
        · rfl
        · exact absurd (h.apart c' a j hold' (hij ▸ hfile)) hca'
      · rcases renamed_eq_some hc' with ⟨-, hij⟩ | ⟨-, hold'⟩
        · exact absurd (h.apart c a j hold (hij ▸ hfile)) hca
        · exact h.apart c c' j hold hold'
    · rcases renamed_eq_some hc with ⟨-, rfl⟩ | ⟨-, hold⟩
      · exact h.files_lt a i hfile
      · exact h.files_lt c j hold

theorem content_rename_target {text : List β} (htext : d.content a = some text) :
    (d.rename a b).content b = some text := by
  obtain ⟨i, hfile, hdata⟩ := Option.map_eq_some_iff.mp htext
  rw [rename_of_some hfile]
  simp [content, hdata]

theorem content_rename_source (hne : a ≠ b) : (d.rename a b).content a = none := by
  cases hfile : d.files a with
  | none => simp [rename_of_none hfile, content, hfile]
  | some i => simp [rename_of_some hfile, content, hne]

theorem content_rename_ne (ha : c ≠ a) (hb : c ≠ b) : (d.rename a b).content c = d.content c := by
  cases hfile : d.files a with
  | none => rw [rename_of_none hfile]
  | some i => simp [rename_of_some hfile, content, ha, hb]

/-- A handle leads to the new name when it led to the old one. -/
theorem leads_rename (hlead : (d.rename a b).Leads f c) : d.Leads f c ∨ c = b ∧ d.Leads f a := by
  cases hfile : d.files a with
  | none =>
    rw [rename_of_none hfile] at hlead
    exact .inl hlead
  | some i =>
    rw [rename_of_some hfile] at hlead
    obtain ⟨j, hj, hc⟩ := hlead
    rcases renamed_eq_some hc with ⟨hcb, rfl⟩ | ⟨-, hold⟩
    · exact .inr ⟨hcb, i, hj, hfile⟩
    · exact .inl ⟨j, hj, hold⟩

theorem leads_rename_ne (ha : c ≠ a) (hb : c ≠ b) (hlead : d.Leads f c) :
    (d.rename a b).Leads f c := by
  obtain ⟨j, hj, hc⟩ := hlead
  cases hfile : d.files a with
  | none =>
    rw [rename_of_none hfile]
    exact ⟨j, hj, hc⟩
  | some i =>
    rw [rename_of_some hfile]
    refine ⟨j, hj, ?_⟩
    dsimp only
    rw [Function.update_of_ne hb, Function.update_of_ne ha, hc]

end Rename

/-! ## Writing -/

theorem Sound.append (h : d.Sound) (f : φ) (text : List β) : (d.append f text).Sound := by
  unfold Disk.append
  cases d.handles f with
  | none => exact h
  | some i => exact ⟨h.apart, h.files_lt, h.handles_lt⟩

theorem leads_append (f : φ) (text : List β) : (d.append f text).Leads g a ↔ d.Leads g a := by
  unfold append
  cases d.handles f <;> rfl

theorem content_append (hlead : d.Leads f a) (text : List β) :
    (d.append f text).content a = some ((d.content a).getD [] ++ text) := by
  obtain ⟨i, hi, hfile⟩ := hlead
  simp [append, content, hi, hfile]

theorem content_append_ne (hlead : ¬ d.Leads f a) (text : List β) :
    (d.append f text).content a = d.content a := by
  unfold append content
  cases hi : d.handles f with
  | none => rfl
  | some i =>
    cases hfile : d.files a with
    | none => rfl
    | some j =>
      have hne : j ≠ i := by
        rintro rfl
        exact hlead ⟨j, hi, hfile⟩
      simp [Function.update_of_ne hne]

end Disk

end Lib
