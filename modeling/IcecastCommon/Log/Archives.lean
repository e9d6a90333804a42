import IcecastCommon.Lib.Disk
import IcecastCommon.Log.Apart
import IcecastCommon.Log.Sizes

/-!
# Archives

The events of a run are played on the files of a disk. What a log was given to write is found there,
in its archives and behind them in its file, whatever happens to the other logs.
-/

namespace Log

open Lib

/-! ## The disk -/

abbrev Files := Disk Bytes FILE Byte

/-- What an event does to the files, where `fopen` returns `answer`. `fprintf` writes everything. -/
def play (answer : Option FILE) (renamed : Bool) (d : Files) : Event → Files
  | .fclose f => d.close f
  | .rename filename new_name => if renamed then d.rename filename new_name else d
  | .fopen filename =>
    match answer with
    | some f => d.openAppend filename.bytes f
    | none => d
  | .fprintf f text => d.append f text

/-- The renamings among the events, with the old names and the new ones. -/
def moves (renamed : Bool) (events : List Event) : List (Bytes × Bytes) :=
  events.filterMap fun event => match event with
    | .rename filename new_name => if renamed then some (filename, new_name) else none
    | _ => none

/-- The names that files with this name got. -/
def targets (name : Bytes) (moved : List (Bytes × Bytes)) : List Bytes :=
  (moved.filter fun move => move.1 = name).map (·.2)

theorem targets_append (name : Bytes) (moved moved' : List (Bytes × Bytes)) :
    targets name (moved ++ moved') = targets name moved ++ targets name moved' := by simp [targets]

/-- The name of an archive. -/
def archive_name (filename : CString) (stamp : Bytes) : Bytes :=
  (filename.bytes ++ ch '.' :: stamp).take 4095

/-- How a log acts on its file, which is open as `f` before the events and as `f'` behind them. -/
inductive Filing (name : Option CString) (answer : Option FILE) :
    Option FILE → List Event → Option FILE → Prop where
  | nil (f) : Filing name answer f [] f
  | fclose {f events f'} : Filing name answer none events f' →
      Filing name answer (some f) (.fclose f :: events) f'
  | rotate {n f events f'} (stamp) : name = some n → Filing name answer none events f' →
      Filing name answer (some f) (.fclose f :: .rename n.bytes (archive_name n stamp) :: events) f'
  | fopen {n events f'} : name = some n → Filing name answer answer events f' →
      Filing name answer none (.fopen n :: events) f'
  | fprintf {f events f'} (text) : Filing name answer (some f) events f' →
      Filing name answer (some f) (.fprintf f text :: events) f'

theorem Filing.append {name : Option CString} {answer f f' f'' : Option FILE}
    {events events' : List Event} (h : Filing name answer f events f')
    (h' : Filing name answer f' events' f'') :
    Filing name answer f (events ++ events') f'' := by
  induction h with
  | nil f => exact h'
  | fclose _ ih => exact .fclose (ih h')
  | rotate stamp hname _ ih => exact .rotate stamp hname (ih h')
  | fopen hname _ ih => exact .fopen hname (ih h')
  | fprintf text _ ih => exact .fprintf text (ih h')

/-! ## One log on the disk -/

/-- The name of a file or of one of its archives. -/
def Belongs (n : CString) (name : Bytes) : Prop := name = n.bytes ∨ n.bytes ++ [ch '.'] <+: name

/-- A file whose archives are not taken for those of `n`. -/
def Clear (n m : CString) : Prop :=
  ¬ Belongs n m.bytes ∧ ∀ stamp, ¬ Belongs n (archive_name m stamp)

theorem archive_belongs {n : CString} (hn : n.bytes.length < 4095) (stamp : Bytes) :
    Belongs n (archive_name n stamp) ∧ archive_name n stamp ≠ n.bytes := by
  have hprefix : n.bytes ++ [ch '.'] <+: archive_name n stamp := by
    unfold archive_name
    refine List.prefix_take_iff.mpr ⟨?_, by simp; omega⟩
    exact ⟨stamp, by simp⟩
  refine ⟨.inr hprefix, fun heq => ?_⟩
  have hlen := hprefix.length_le
  rw [heq, List.length_append, List.length_singleton] at hlen
  omega

/-- Where the texts of a log are. It writes through `mine`, and the other logs through `others`. -/
structure On_disk (n : CString) (before told : Bytes) (archives : List (Bytes × Bytes)) (d : Files)
    (mine : Option FILE) (others : FILE → Prop) : Prop where
  sound : d.Sound
  short : n.bytes.length < 4095
  leads : ∀ f, mine = some f → d.Leads f n.bytes ∧ ¬ others f
  alone : ∀ g, others g → ∀ name, Belongs n name → ¬ d.Leads g name
  names : ∀ a ∈ archives, ∃ stamp, a.1 = archive_name n stamp
  texts : (archives.map (·.2)).flatten ++ (d.content n.bytes).getD [] = before ++ told
  stored : ∀ pre a text post, archives = pre ++ (a, text) :: post → a ∉ post.map (·.1) →
    d.content a = some text

/-- A handle that another log may have. -/
def Beside (others : FILE → Prop) (f : Option FILE) (g : FILE) : Prop := others g ∨ f = some g

section Disk

variable {n m : CString} {before told : Bytes} {archives : List (Bytes × Bytes)} {d d' : Files}
  {mine : Option FILE} {others : FILE → Prop} {f : FILE}

theorem belongs_self (n : CString) : Belongs n n.bytes := .inl rfl

theorem On_disk.archive_belongs (h : On_disk n before told archives d mine others)
    {pre post : List (Bytes × Bytes)} {a text : Bytes} (heq : archives = pre ++ (a, text) :: post) :
    Belongs n a ∧ a ≠ n.bytes := by
  obtain ⟨stamp, hname⟩ := h.names (a, text) (by simp [heq])
  dsimp only at hname
  rw [hname]
  exact Log.archive_belongs h.short stamp

theorem On_disk.others_le {others' : FILE → Prop} (h : On_disk n before told archives d mine others)
    (hle : ∀ g, others' g → others g) : On_disk n before told archives d mine others' :=
  ⟨h.sound, h.short, fun f hf => ⟨(h.leads f hf).1, fun hother => (h.leads f hf).2 (hle f hother)⟩,
    fun g hg => h.alone g (hle g hg), h.names, h.texts, h.stored⟩

/-! ### What the log does -/

theorem On_disk.fclose (h : On_disk n before told archives d (some f) others) :
    On_disk n before told archives (d.close f) none others :=
  ⟨h.sound.close f, h.short, by simp,
    fun g hg name hname hlead => h.alone g hg name hname (Disk.leads_close hlead),
    h.names, h.texts, h.stored⟩

/-- The file becomes an archive. -/
theorem On_disk.rotate (h : On_disk n before told archives d (some f) others) (stamp : Bytes) :
    ∃ text, On_disk n before told (archives ++ [(archive_name n stamp, text)])
      ((d.close f).rename n.bytes (archive_name n stamp)) none others := by
  obtain ⟨hbelongs, hne⟩ := Log.archive_belongs h.short stamp
  obtain ⟨⟨i, -, hfile⟩, -⟩ := h.leads f rfl
  replace h := h.fclose
  have htext : (d.close f).content n.bytes = some (d.data i) := congrArg (Option.map d.data) hfile
  refine ⟨d.data i, h.sound.rename _ _, h.short, by simp, ?_, ?_, ?_, ?_⟩
  · intro g hg name hname hlead
    rcases Disk.leads_rename hlead with hlead | ⟨-, hlead⟩
    · exact h.alone g hg name hname hlead
    · exact h.alone g hg _ (belongs_self n) hlead
  · intro a ha
    rcases List.mem_append.mp ha with ha | ha
    · exact h.names a ha
    · rw [List.mem_singleton.mp ha]
      exact ⟨stamp, rfl⟩
  · have hall := h.texts
    rw [htext] at hall
    rw [Disk.content_rename_source (Ne.symm hne), ← hall]
    simp
  · intro pre a t post heq hlast
    rcases List.eq_nil_or_concat post with rfl | ⟨post, last, rfl⟩
    · obtain ⟨-, heq⟩ := List.append_inj' heq rfl
      obtain ⟨rfl, rfl⟩ := Prod.mk.inj (List.cons.inj heq).1
      exact Disk.content_rename_target htext
    · rw [List.concat_eq_append, ← List.cons_append, ← List.append_assoc] at heq
      obtain ⟨hrest, hlast'⟩ := List.append_inj' heq rfl
      obtain rfl := (List.cons.inj hlast').1
      simp only [List.concat_eq_append, List.map_append, List.mem_append, List.map_cons,
        List.map_nil, List.mem_singleton, not_or] at hlast
      rw [Disk.content_rename_ne (h.archive_belongs hrest).2 hlast.2]
      exact h.stored pre a t post hrest hlast.1

/-- The handle is one that no other log uses. -/
theorem On_disk.fopen (h : On_disk n before told archives d none others) (hf : ¬ others f) :
    On_disk n before told archives (d.openAppend n.bytes f) (some f) others := by
  refine ⟨h.sound.openAppend _ _, h.short, ?_, ?_, h.names, ?_, ?_⟩
  · intro g hg
    obtain rfl := Option.some.inj hg
    exact ⟨Disk.openAppend_leads _ _ _, hf⟩
  · intro g hg name hname hlead
    have hgf : g ≠ f := by
      rintro rfl
      exact hf hg
    exact h.alone g hg name hname ((Disk.leads_openAppend h.sound hgf).mp hlead)
  · rw [Disk.content_openAppend]
    exact h.texts
  · intro pre a text post heq hlast
    rw [Disk.content_openAppend_ne h.sound (h.archive_belongs heq).2]
    exact h.stored pre a text post heq hlast

theorem On_disk.fprintf (h : On_disk n before told archives d (some f) others) (text : Bytes) :
    On_disk n before (told ++ text) archives (d.append f text) (some f) others := by
  have hlead := (h.leads f rfl).1
  refine ⟨h.sound.append f text, h.short, ?_, ?_, h.names, ?_, ?_⟩
  · intro g hg
    exact ⟨(Disk.leads_append f text).mpr (h.leads g hg).1, (h.leads g hg).2⟩
  · intro g hg name hname hlead'
    exact h.alone g hg name hname ((Disk.leads_append f text).mp hlead')
  · rw [Disk.content_append hlead, Option.getD_some, ← List.append_assoc,
      ← List.append_assoc, h.texts]
  · intro pre a t post heq hlast
    have hne : ¬ d.Leads f a :=
      fun hlead' => (h.archive_belongs heq).2 (h.sound.leads_unique hlead' hlead)
    rw [Disk.content_append_ne hne]
    exact h.stored pre a t post heq hlast

/-- What the log writes is behind what it was told before, and each renaming makes an archive. -/
theorem Filing.own {answer f f' : Option FILE} {events : List Event}
    (hf : Filing (some n) answer f events f') (hanswer : ∀ g, answer = some g → ¬ others g)
    (renamed : Bool) (h : On_disk n before told archives d f others) :
    ∃ archives', archives'.map (·.1) = archives.map (·.1) ++
      targets n.bytes (moves renamed events) ∧
      On_disk n before (told ++ (lines events).flatten) archives'
        (events.foldl (play answer renamed) d) f' others := by
  induction hf generalizing told archives d with
  | nil f => exact ⟨archives, by simp [targets, moves], by simpa [lines] using h⟩
  | fclose _ ih => exact ih h.fclose
  | rotate stamp hname _ ih =>
    obtain rfl := Option.some.inj hname
    cases renamed with
    | false => exact ih h.fclose
    | true =>
      obtain ⟨text, h'⟩ := h.rotate stamp
      obtain ⟨archives', hnames, h''⟩ := ih h'
      refine ⟨archives', ?_, h''⟩
      rw [hnames]
      simp [targets, moves]
  | fopen hname _ ih =>
    obtain rfl := Option.some.inj hname
    cases answer with
    | none => exact ih h
    | some g => exact ih (h.fopen (hanswer g rfl))
  | fprintf text _ ih =>
    obtain ⟨archives', hnames, h'⟩ := ih (h.fprintf text)
    refine ⟨archives', hnames, ?_⟩
    rw [List.append_assoc] at h'
    exact h'

/-- A file that is open as `file` does not belong to the log. -/
theorem On_disk.beside {file : Option FILE} (h : On_disk n before told archives d mine others)
    (hfile : ∀ f, file = some f → ∀ name, Belongs n name → ¬ d.Leads f name) :
    On_disk n before told archives d mine (Beside others file) := by
  refine ⟨h.sound, h.short, fun f hf => ?_, fun g hg name hname hlead => ?_, h.names,
    h.texts, h.stored⟩
  · have hlead := (h.leads f hf).1
    exact ⟨hlead, fun hbeside => hbeside.elim (h.leads f hf).2 fun heq =>
      hfile f heq _ (belongs_self n) hlead⟩
  · exact hg.elim (fun hother => h.alone g hother name hname hlead) fun heq =>
      hfile g heq name hname hlead

/-! ### What the other logs do -/

/-- A change to files that do not belong to the log. -/
theorem On_disk.away {others' : FILE → Prop} (h : On_disk n before told archives d mine others)
    (hsound : d'.Sound) (hcontent : ∀ name, Belongs n name → d'.content name = d.content name)
    (hmine : ∀ f, mine = some f → d.Leads f n.bytes → d'.Leads f n.bytes ∧ ¬ others' f)
    (halone : ∀ g, others' g → ∀ name, Belongs n name → d'.Leads g name →
      others g ∧ d.Leads g name) :
    On_disk n before told archives d' mine others' := by
  refine ⟨hsound, h.short, fun f hf => hmine f hf (h.leads f hf).1, fun g hg name hname hlead => ?_,
    h.names, ?_, ?_⟩
  · obtain ⟨hother, hlead⟩ := halone g hg name hname hlead
    exact h.alone g hother name hname hlead
  · rw [hcontent _ (belongs_self n)]
    exact h.texts
  · intro pre a text post heq hlast
    rw [hcontent a (h.archive_belongs heq).1]
    exact h.stored pre a text post heq hlast

theorem Clear.ne (h : Clear n m) {name : Bytes} (hname : Belongs n name) : name ≠ m.bytes := by
  rintro rfl
  exact h.1 hname

theorem Clear.archive_ne (h : Clear n m) {name : Bytes} (hname : Belongs n name) (stamp : Bytes) :
    name ≠ archive_name m stamp := by
  rintro rfl
  exact h.2 stamp hname

theorem On_disk.away_fclose (h : On_disk n before told archives d mine (Beside others (some f))) :
    On_disk n before told archives (d.close f) mine (Beside others none) := by
  refine h.away (h.sound.close f) (fun _ _ => rfl) (fun g hg hlead => ?_) fun g hg _ _ hlead => ?_
  · have hother := (h.leads g hg).2
    refine ⟨Disk.leads_close_ne ?_ hlead, fun hbeside =>
      hother (.inl (hbeside.resolve_right (by simp)))⟩
    rintro rfl
    exact hother (.inr rfl)
  · exact ⟨.inl (hg.resolve_right (by simp)), Disk.leads_close hlead⟩

theorem On_disk.away_rename (h : On_disk n before told archives d mine others) (hm : Clear n m)
    (stamp : Bytes) :
    On_disk n before told archives (d.rename m.bytes (archive_name m stamp)) mine others := by
  refine h.away (h.sound.rename _ _) (fun name hname => ?_) (fun g hg hlead => ?_)
    fun g hg name hname hlead => ?_
  · exact Disk.content_rename_ne (hm.ne hname) (hm.archive_ne hname stamp)
  · exact ⟨Disk.leads_rename_ne (hm.ne (belongs_self n))
      (hm.archive_ne (belongs_self n) stamp) hlead, (h.leads g hg).2⟩
  · refine ⟨hg, (Disk.leads_rename hlead).resolve_right ?_⟩
    rintro ⟨htarget, -⟩
    exact hm.archive_ne hname stamp htarget

theorem On_disk.away_fopen (h : On_disk n before told archives d mine others) (hm : Clear n m)
    (hf : mine ≠ some f) :
    On_disk n before told archives (d.openAppend m.bytes f) mine (Beside others (some f)) := by
  have hsound := h.sound.openAppend m.bytes f
  refine h.away hsound (fun name hname => Disk.content_openAppend_ne h.sound (hm.ne hname) f)
    (fun g hg hlead => ?_) fun g hg name hname hlead => ?_
  · have hgf : g ≠ f := by
      rintro rfl
      exact hf hg
    refine ⟨(Disk.leads_openAppend h.sound hgf).mpr hlead, fun hbeside => ?_⟩
    exact hbeside.elim (h.leads g hg).2 fun heq => hgf (Option.some.inj heq).symm
  · have hgf : g ≠ f := by
      rintro rfl
      exact hm.ne hname (hsound.leads_unique hlead (Disk.openAppend_leads d m.bytes g))
    exact ⟨hg.resolve_right fun heq => hgf (Option.some.inj heq).symm,
      (Disk.leads_openAppend h.sound hgf).mp hlead⟩

theorem On_disk.away_fprintf (h : On_disk n before told archives d mine others) (hf : others f)
    (text : Bytes) :
    On_disk n before told archives (d.append f text) mine others := by
  refine h.away (h.sound.append f text) (fun name hname =>
    Disk.content_append_ne (h.alone f hf name hname) text)
    (fun g hg hlead => ⟨(Disk.leads_append f text).mpr hlead, (h.leads g hg).2⟩)
      fun g hg _ _ hlead => ?_
  exact ⟨hg, (Disk.leads_append f text).mp hlead⟩

theorem Filing.targets_away {name : Option CString} {answer f f' : Option FILE}
    {events : List Event} (hf : Filing name answer f events f')
    (hname : ∀ m, name = some m → Clear n m) (renamed : Bool) :
    targets n.bytes (moves renamed events) = [] := by
  induction hf with
  | nil f => rfl
  | fclose _ ih => exact ih
  | rotate stamp hm _ ih =>
    cases renamed with
    | false => exact ih
    | true =>
      have hne := (hname _ hm).ne (belongs_self n)
      simpa [targets, moves, Ne.symm hne] using ih
  | fopen _ _ ih => exact ih
  | fprintf text _ ih => exact ih

/-- A log whose names are others changes nothing. -/
theorem Filing.away {name : Option CString} {answer f f' : Option FILE} {events : List Event}
    (hf : Filing name answer f events f') (hname : ∀ m, name = some m → Clear n m)
    (hanswer : ∀ g, answer = some g → mine ≠ some g) (renamed : Bool)
    (h : On_disk n before told archives d mine (Beside others f)) :
    On_disk n before told archives (events.foldl (play answer renamed) d) mine
      (Beside others f') := by
  induction hf generalizing d with
  | nil f => exact h
  | fclose _ ih => exact ih h.away_fclose
  | rotate stamp hm _ ih =>
    cases renamed with
    | false => exact ih h.away_fclose
    | true => exact ih (h.away_fclose.away_rename (hname _ hm) stamp)
  | fopen hm _ ih =>
    cases answer with
    | none => exact ih h
    | some g =>
      exact ih ((h.away_fopen (hname _ hm) (hanswer g rfl)).others_le fun g' hg' =>
        hg'.imp_left .inl)
  | fprintf text _ ih => exact ih (h.away_fprintf (.inr rfl) text)

end Disk

/-! ## Calls -/

section Calls

variable {w w' : Logger} {id : Nat}

/-- What a call makes of the logs when it acts for one of them, under its name. -/
structure Acts (w : Logger) (id : Nat) (events : List Event) (w' : Logger) : Prop where
  adds : w'.events = w.events ++ events
  filing : Filing (w.loglist id).filename (w.answers.fopen 0) (w.loglist id).logfile events
    (w'.loglist id).logfile
  filename : (w'.loglist id).filename = (w.loglist id).filename
  others : ∀ j ≠ id, SameFile (w.loglist j) (w'.loglist j)

/-- Nothing happens to files. -/
structure Still (w w' : Logger) : Prop where
  events : w'.events = w.events
  files : SameFiles w w'

theorem SameFile.trans {log log' log'' : log_t} (h : SameFile log log') (h' : SameFile log' log'') :
    SameFile log log'' :=
  ⟨h'.in_use.trans h.in_use, h'.filename.trans h.filename, h'.logfile.trans h.logfile⟩

theorem still_put (id : Nat) {log : log_t} (hevents : w'.events = w.events)
    (hslots : w'.loglist = Function.update w.loglist id log)
    (hs : SameFile (w.loglist id) log) : Still w w' := ⟨hevents, same_files_put hslots hs⟩

theorem still_same (hevents : w'.events = w.events) (hslots : w'.loglist = w.loglist) :
    Still w w' :=
  ⟨hevents, (rests_same hslots).files⟩

theorem Relinked.still (h : Relinked w w') : Still w w' := ⟨h.events, h.rests.files⟩

theorem Still.trans {w'' : Logger} (h : Still w w') (h' : Still w' w'') : Still w w'' :=
  ⟨h'.events.trans h.events, h.files.trans h'.files⟩

theorem acts_put {events : List Event} (log : log_t) (hevents : w'.events = w.events ++ events)
    (hslots : w'.loglist = Function.update w.loglist id log)
    (hname : log.filename = (w.loglist id).filename)
    (hf : Filing (w.loglist id).filename (w.answers.fopen 0)
      (w.loglist id).logfile events log.logfile) : Acts w id events w' := by
  refine ⟨hevents, ?_, ?_, fun j hj => ?_⟩
  · rwa [hslots, Function.update_self]
  · rwa [hslots, Function.update_self]
  · rw [hslots, Function.update_of_ne hj]
    exact SameFile.refl _

theorem Acts.still {events : List Event} {w'' : Logger} (h : Acts w id events w')
    (h' : Still w' w'') : Acts w id events w'' := by
  refine ⟨h'.events.trans h.adds, ?_, (h'.files id).filename.trans h.filename, fun j hj =>
    (h.others j hj).trans (h'.files j)⟩
  rw [(h'.files id).logfile]
  exact h.filing

theorem rotate_filing (w : Logger) (id : Nat) (filename : CString) (answer : Option FILE) :
    ∃ events,
    (rotate w id filename).events = w.events ++ events ∧ lines events = [] ∧
      Filing (some filename) answer (w.loglist id).logfile events none ∧
      (rotate w id filename).answers.fopen = w.answers.fopen := by
  unfold rotate
  cases (w.loglist id).logfile with
  | none => exact ⟨[], (List.append_nil _).symm, rfl, .nil none, rfl⟩
  | some file =>
    have hclose (stamp : Bytes) : Filing (some filename) answer (some file)
        [.fclose file, .rename filename.bytes (archive_name filename stamp)] none :=
      .rotate stamp rfl (.nil none)
    dsimp only
    split_ifs
    · exact ⟨_, List.append_assoc _ _ _, rfl, hclose _, rfl⟩
    · exact ⟨_, List.append_assoc _ _ _, rfl, hclose (ascii "old"), rfl⟩

theorem _log_open_acts (w : Logger) (id : Nat) :
    ∃ events, Acts w id events (_log_open w id).2 ∧ lines events = [] := by
  have hsame : Acts w id [] w := ⟨(List.append_nil _).symm, .nil _, rfl, fun j _ => SameFile.refl _⟩
  unfold _log_open
  dsimp only
  split_ifs with huse hopen
  · cases hname : (w.loglist id).filename with
    | none =>
      exact ⟨[], acts_put { w.loglist id with size := 0 } (List.append_nil _).symm rfl rfl (.nil _),
        rfl⟩
    | some filename =>
      obtain ⟨events, hevents, hlines, hfiling, hanswer⟩ :=
        rotate_filing w id filename (w.answers.fopen 0)
      obtain ⟨-, -, -, -, hslots⟩ := rotate_spec w id filename
      have hevents' :
          (rotate w id filename).events ++ [Event.fopen filename] =
          w.events ++ (events ++ [.fopen filename]) := by
        rw [hevents, List.append_assoc]
      have hfiling' :
        Filing (w.loglist id).filename (w.answers.fopen 0) (w.loglist id).logfile
          (events ++ [.fopen filename]) ((rotate w id filename).answers.fopen 0) := by
        rw [hname, hanswer]
        exact hfiling.append (.fopen rfl (.nil _))
      have hopened :
        Acts w id (events ++ [.fopen filename])
          (((rotate w id filename).fopen filename).2.put id fun log =>
            { log with logfile := ((rotate w id filename).fopen filename).1 }) := by
        refine acts_put { w.loglist id with logfile := (rotate w id filename).answers.fopen 0 }
          hevents' ?_ rfl hfiling'
        simp [Logger.put, Logger.fopen, Logger.record, hslots]
      refine ⟨events ++ [.fopen filename], ?_, by rw [lines_append, hlines]; rfl⟩
      dsimp only
      split_ifs
      · exact hopened
      · exact hopened.still (still_put id rfl rfl ⟨rfl, rfl, rfl⟩)
  · exact ⟨[], hsame, rfl⟩
  · exact ⟨[], hsame, rfl⟩

theorem Acts.fprintf {events : List Event} {w'' : Logger} {file : FILE} {text : Bytes}
    (h : Acts w id events w') (hfile : (w'.loglist id).logfile = some file)
    (hevents : w''.events = w'.events ++ [.fprintf file text])
    (hsame : SameFiles w' w'') : Acts w id (events ++ [.fprintf file text]) w'' := by
  have hfiling := h.filing
  rw [hfile] at hfiling
  refine ⟨?_, ?_, (hsame id).filename.trans h.filename, fun j hj => (h.others j hj).trans (hsame j)⟩
  · rw [hevents, h.adds, List.append_assoc]
  · rw [(hsame id).logfile, hfile]
    exact hfiling.append (.fprintf text (.nil _))

theorem fprintf_closed (w : Logger) (text : Bytes) (r : Int × Logger) :
    w.fprintf none text ≠ .ok r := by simp [Logger.fprintf]

theorem write_line_acts {pre : CString} {line : Line} (hpre : pre.bytes.length ≤ 255) :
    Yields (write_line w id pre line) fun w' => ∃ events, Acts w id events w' ∧
      (w'.loglist id).in_use = (w.loglist id).in_use ∧
      (lines events).flatten = if (_log_open w id).1 = 0 then []
      else (text_of pre line.text).bytes := by
  obtain ⟨events, hacts, hlines⟩ := _log_open_acts w id
  obtain ⟨logfile, size, hslots, -⟩ := (_log_open_spec w id).slot
  have huse : ((_log_open w id).2.loglist id).in_use = (w.loglist id).in_use := by
    rw [hslots, Function.update_self]
  refine write_line_keeps (fun hclosed => ⟨events, hacts, huse, ?_⟩) fun hopen r hr => ?_
  · rw [if_pos hclosed, hlines]
    rfl
  obtain ⟨file, hfile⟩ : ∃ file, ((_log_open w id).2.loglist id).logfile = some file := by
    by_cases hkeep : ((_log_open w id).2.loglist id).keep_entries = 0
    · refine Option.ne_none_iff_exists'.mp fun hnone => ?_
      unfold create_log_entry at hr
      rw [if_pos hkeep, hnone] at hr
      exact fprintf_closed _ _ r hr
    · exact (create_log_entry_ok hkeep hr).2.2
  obtain ⟨hprinted, -⟩ := create_log_entry_printed hfile (text_fits hpre line) r hr
  have hsame := (create_log_entry_rests _ id pre line.text r hr).files
  have hwritten : Acts w id (events ++ [.fprintf file (text_of pre line.text).bytes]) r.2 :=
    hacts.fprintf hfile hprinted.events hsame
  have hcounted : Still r.2 (r.2.put id fun log => { log with size := log.size + r.1 }) :=
    still_put id rfl rfl ⟨rfl, rfl, rfl⟩
  have hlines' : (lines (events ++ [.fprintf file (text_of pre line.text).bytes])).flatten =
      if (_log_open w id).1 = 0 then [] else (text_of pre line.text).bytes := by
    rw [if_neg hopen, lines_append, hlines]
    simp [lines]
  refine ⟨⟨_, hwritten, ((hsame id).in_use).trans huse, hlines'⟩, _,
    hwritten.still hcounted, ?_, hlines'⟩
  exact (hcounted.files id).in_use.trans (((hsame id).in_use).trans huse)

/-- The line that a call brings to the file of a log. It is lost when the file cannot be opened. -/
def line_taken (w : Logger) (id : Nat) (c : Call) : Bytes :=
  if c.subject w = some id ∧ (_log_open w id).1 ≠ 0 then
    ((next_line (w.loglist id).level w.answers.strftime c).1.map CString.bytes).getD []
  else []

/-- A call for a log that is open already. -/
structure Works (w : Logger) (c : Call) (id : Nat) (events : List Event) (w' : Logger) : Prop where
  subject : c.subject w = some id
  acts : Acts w id events w'
  lines : (lines events).flatten = line_taken w id c
  in_use : (∀ log_id, c ≠ .log_close log_id) → (w'.loglist id).in_use = (w.loglist id).in_use

/-- The calls that leave all names as they are. -/
def Named : Call → Prop
  | .log_open _ | .log_open_file _ | .log_set_filename _ _ => False
  | _ => True

theorem line_taken_ne {c : Call} (hsubject : c.subject w = some id) {j : Nat} (hj : j ≠ id) :
    line_taken w j c = [] := by
  unfold line_taken
  rw [if_neg]
  rintro ⟨hj', -⟩
  exact hj (Option.some.inj (hj'.symm.trans hsubject))

theorem line_taken_none {c : Call}
    (hline : (next_line (w.loglist id).level w.answers.strftime c).1 = none) :
    line_taken w id c = [] := by
  unfold line_taken
  rw [hline]
  exact ite_self _

theorem _log_open_fails (w : Logger) (id : Nat) :
    (_log_open w id).1 = 0 ↔ (w.loglist id).in_use = false ∨
    ((w.loglist id).logfile = none ∨ (w.loglist id).trigger_level ≠ 0 ∧
      (w.loglist id).size > (w.loglist id).trigger_level) ∧
      (w.loglist id).filename ≠ none ∧ w.answers.fopen 0 = none := by
  unfold _log_open
  dsimp only
  split_ifs with huse hopen
  · cases hname : (w.loglist id).filename with
    | none => simp [huse]
    | some filename =>
      obtain ⟨-, -, -, -, hanswer⟩ := rotate_filing w id filename none
      dsimp only [Logger.fopen]
      rw [← hanswer]
      split_ifs with hfile
      · simp [huse, hopen, hfile]
      · simp [huse, hfile]
  · simp [huse, hopen]
  · simp [huse]

/-- Whether the file is opened does not depend on the date. -/
theorem _log_open_strftime (w : Logger) (id : Nat) :
    (_log_open w.strftime.2 id).1 = 0 ↔ (_log_open w id).1 = 0 := by
  rw [_log_open_fails, _log_open_fails]
  rfl

theorem log_contents_still (log_id : Int) :
    Yields (log_contents w log_id) fun r => Still w r.2 := by
  refine yields_ite (fun _ => yields_ok (still_same rfl rfl)) fun _ => ?_
  dsimp only [Logger.malloc]
  split
  · exact yields_error _
  next hw =>
    obtain rfl := (Prod.mk.inj hw).2
    refine yields_ite (fun _ => yields_error _) fun _ => ?_
    exact yields_bind fun buf _ => yields_ok (still_same rfl rfl)

theorem log_set_lines_kept_still (log_id : Int) (count : Nat) :
    Yields (log_set_lines_kept w log_id count) (Still w) := by
  have hsame := still_same (rfl : w.events = w.events) rfl
  refine yields_ite (fun _ => yields_ok hsame) fun _ =>
    yields_ite (fun _ => yields_ok hsame) fun _ => ?_
  intro w' hw'
  have hput : Still w (w.put log_id.toNat fun log => { log with keep_entries := count }) :=
    still_put log_id.toNat rfl rfl ⟨rfl, rfl, rfl⟩
  exact hput.trans (remove_loop_relinked _ _ _ _ w' hw').still

theorem log_close_acts (hid : valid id = true) : Yields (log_close w id) fun w' =>
    Still w w' ∨ ∃ events, Acts w id events w' ∧ lines events = [] := by
  unfold log_close
  rw [Int.toNat_natCast]
  refine yields_ite (fun hinvalid => absurd hid hinvalid) fun _ =>
    yields_ite (fun _ => yields_ok (.inl (still_same rfl rfl))) fun _ => ?_
  intro w' hw'
  have hremoved := (remove_loop_relinked _ _ _ _ w' hw').still
  suffices hclosed : ∃ events, Acts w id events _ ∧ lines events = [] from
    .inr (hclosed.imp fun events h => ⟨h.1.still hremoved, h.2⟩)
  split
  next file hfile =>
    rw [put_self] at hfile
    replace hfile : (w.loglist id).logfile = some file := hfile
    refine ⟨[.fclose file],
      acts_put { w.loglist id with in_use := false, level := 2, logfile := none } rfl ?_ rfl ?_,
      rfl⟩
    · simp [Logger.put, Logger.record]
    · rw [hfile]
      exact .fclose (.nil none)
  · exact ⟨[], acts_put _ (List.append_nil _).symm rfl rfl (.nil _), rfl⟩

/-- A number that is valid, or for which nothing happens. -/
theorem valid_cases (log_id : Int) :
    (∃ id : Nat, log_id = id ∧ valid id = true ∧ slot_named log_id = some id) ∨
    ¬ valid log_id = true := by
  by_cases hid : valid log_id = true
  · have hnat := hid
    simp only [valid, decide_eq_true_eq, not_or, Int.not_lt] at hnat
    obtain ⟨id, rfl⟩ := Int.eq_ofNat_of_zero_le hnat.1
    exact .inl ⟨id, rfl, hid, by rw [slot_named, if_pos hid, Int.toNat_natCast]⟩
  · exact .inr hid

theorem line_taken_some {c : Call} {text : CString} (hsubject : c.subject w = some id)
    (hline : (next_line (w.loglist id).level w.answers.strftime c).1 = some text) :
    line_taken w id c = if (_log_open w id).1 = 0 then [] else text.bytes := by
  unfold line_taken
  rw [hline]
  by_cases hopen : (_log_open w id).1 = 0 <;> simp [hsubject, hopen]

theorem line_taken_filtered {c : Call} (hsubject : c.subject w = some id)
    (hline : (next_line (w.loglist id).level w.answers.strftime c).1 = none) (j : Nat) :
    line_taken w j c = [] := by
  by_cases hj : j = id
  · rw [hj]
    exact line_taken_none hline
  · exact line_taken_ne hsubject hj

theorem line_taken_invalid {c : Call} (hsubject : c.subject w = none) (id : Nat) :
    line_taken w id c = [] := by
  unfold line_taken
  rw [if_neg]
  rintro ⟨hid, -⟩
  rw [hsubject] at hid
  cases hid

/-- A call that works for one log, or for none. -/
def Served (w : Logger) (c : Call) (w' : Logger) : Prop :=
  (Still w w' ∧ ∀ id, line_taken w id c = []) ∨ ∃ id events, Works w c id events w'

theorem log_reopen_served (w : Logger) (log_id : Int) :
    Served w (.log_reopen log_id) (log_reopen w log_id) := by
  have hnothing : Served w (.log_reopen log_id) w :=
    .inl ⟨still_same rfl rfl, fun id => line_taken_none rfl⟩
  rcases valid_cases log_id with ⟨id, rfl, hid, hsubject⟩ | hid
  · unfold log_reopen
    rw [if_neg (not_not.mpr hid), Int.toNat_natCast]
    split
    next filename file hname hfile =>
      refine .inr ⟨id, [.fclose file], hsubject,
        acts_put { w.loglist id with logfile := none } rfl rfl rfl ?_,
        (line_taken_none rfl).symm, fun _ => ?_⟩
      · rw [hfile]
        exact .fclose (.nil none)
      · rw [put_self]
        rfl
    · exact hnothing
  · rw [log_reopen, if_pos hid]
    exact hnothing

theorem log_close_served (w : Logger) (log_id : Int) :
    Yields (log_close w log_id) (Served w (.log_close log_id)) := by
  rcases valid_cases log_id with ⟨id, rfl, hid, hsubject⟩ | hid
  · intro w' hw'
    rcases log_close_acts hid w' hw' with hsame | ⟨events, hacts, hlines⟩
    · exact .inl ⟨hsame, fun id => line_taken_none rfl⟩
    · refine .inr ⟨id, events, hsubject, hacts, ?_, fun hother => absurd rfl (hother id)⟩
      rw [hlines, line_taken_none rfl]
      rfl
  · rw [log_close, if_pos hid]
    exact yields_ok (.inl ⟨still_same rfl rfl, fun id => line_taken_none rfl⟩)

theorem log_write_served (w : Logger) (log_id : Int) (priority : Nat) (cat func : CString)
    (line : Line) :
    Yields (log_write w log_id priority cat func line)
      (Served w (.log_write log_id priority cat func line)) := by
  have hsame := still_same (rfl : w.events = w.events) rfl
  rcases valid_cases log_id with ⟨id, rfl, hid, hsubject⟩ | hid
  · unfold log_write
    rw [if_neg (not_not.mpr hid), Int.toNat_natCast]
    -- The level keeps the line out, or there is no such priority.
    have hfiltered (h : (w.loglist id).level < priority ∨ priority = 0 ∨ priority > prior.length)
      (j : Nat) :
        line_taken w j (.log_write id priority cat func line) = [] :=
      line_taken_filtered (c := .log_write id priority cat func line) hsubject
        (congrArg Prod.fst (if_pos h)) j
    refine yields_ite (fun hlevel => yields_ok (.inl ⟨hsame, hfiltered (.inl hlevel)⟩))
      fun hlevel =>
      yields_ite (fun hpriority => yields_ok (.inl ⟨hsame, hfiltered (.inr hpriority)⟩))
        fun hpriority => ?_
    intro w' hw'
    obtain ⟨events, hacts, huse, hlines⟩ :=
      write_line_acts (pre_of_length w.strftime.1 priority cat func) w' hw'
    refine .inr ⟨id, events, hsubject, ⟨hacts.adds, hacts.filing, hacts.filename, hacts.others⟩, ?_,
      fun _ => huse⟩
    have hline :
      (next_line (w.loglist id).level w.answers.strftime (.log_write id priority cat func line)).1 =
        some (text_of (pre_of w.strftime.1 priority cat func) line.text) :=
      congrArg Prod.fst (if_neg (not_or.mpr ⟨hlevel, hpriority⟩))
    rw [hlines, line_taken_some (c := .log_write id priority cat func line) hsubject hline]
    exact if_congr (_log_open_strftime w id) rfl rfl
  · rw [log_write, if_pos hid]
    exact yields_ok (.inl ⟨hsame, line_taken_invalid (if_neg hid)⟩)

theorem log_write_direct_served (w : Logger) (log_id : Int) (line : Line) :
    Yields (log_write_direct w log_id line) (Served w (.log_write_direct log_id line)) := by
  rcases valid_cases log_id with ⟨id, rfl, hid, hsubject⟩ | hid
  · unfold log_write_direct
    rw [if_neg (not_not.mpr hid), Int.toNat_natCast]
    intro w' hw'
    obtain ⟨events, hacts, huse, hlines⟩ := write_line_acts (Nat.zero_le _) w' hw'
    refine .inr ⟨id, events, hsubject, hacts, ?_, fun _ => huse⟩
    rw [hlines, line_taken_some (c := .log_write_direct id line) hsubject rfl]
  · rw [log_write_direct, if_pos hid]
    exact yields_ok (.inl ⟨still_same rfl rfl, line_taken_invalid (if_neg hid)⟩)

/-- A call under the names that there are works for one log, or for none. -/
theorem call_served {c : Call} (hc : Named c) : Yields (call w c) (Served w c) := by
  have hsame := still_same (rfl : w.events = w.events) rfl
  cases c with
  | log_open filename => exact hc.elim
  | log_open_file file => exact hc.elim
  | log_set_filename id filename => exact hc.elim
  | log_set_trigger id trigger =>
    refine yields_ok (.inl ⟨?_, fun id => line_taken_none rfl⟩)
    unfold log_set_trigger
    split_ifs
    · exact still_put id.toNat rfl rfl ⟨rfl, rfl, rfl⟩
    · exact hsame
  | log_set_archive_timestamp id value =>
    refine yields_ok (.inl ⟨?_, fun id => line_taken_none rfl⟩)
    unfold log_set_archive_timestamp
    split_ifs
    · exact still_put id.toNat rfl rfl ⟨rfl, rfl, rfl⟩
    · exact hsame
  | log_set_level log_id level =>
    refine yields_ok (.inl ⟨?_, fun id => line_taken_none rfl⟩)
    unfold log_set_level
    split_ifs
    · exact still_put log_id.toNat rfl rfl ⟨rfl, rfl, rfl⟩
    · exact hsame
  | log_set_lines_kept log_id count =>
    exact fun w' hw' =>
      .inl ⟨log_set_lines_kept_still log_id count w' hw', fun id => line_taken_none rfl⟩
  | log_contents log_id =>
    exact (log_contents_still log_id).bind fun r hr =>
      yields_ok (.inl ⟨hr, fun id => line_taken_none rfl⟩)
  | log_reopen log_id => exact yields_ok (log_reopen_served w log_id)
  | log_close log_id => exact log_close_served w log_id
  | log_write log_id priority cat func line =>
    exact log_write_served w log_id priority cat func line
  | log_write_direct log_id line => exact log_write_direct_served w log_id line

/-! ### Calls that open or name a log -/

/-- A log gets a file and a name, and was not in use before. -/
structure Opens (w : Logger) (id : Nat) (file : Option FILE) (name : Option CString)
    (w' : Logger) : Prop where
  free : (w.loglist id).in_use = false
  in_use : (w'.loglist id).in_use = true
  logfile : (w'.loglist id).logfile = file
  filename : (w'.loglist id).filename = name
  others : ∀ j ≠ id, SameFile (w.loglist j) (w'.loglist j)

theorem slot_named_lt {id : Nat} (hid : id < LOG_MAXLOGS) : slot_named id = some id := by
  have hvalid : valid id = true := by
    simp only [valid, decide_eq_true_eq, not_or]
    omega
  rw [slot_named, if_pos hvalid, Int.toNat_natCast]

theorem log_open_file_opens (w : Logger) (file : Option FILE) :
    (log_open_file w file).1 < 0 ∧ (log_open_file w file).2 = w ∨
      ∃ id : Nat, (log_open_file w file).1 = id ∧ id < LOG_MAXLOGS ∧
      file ≠ none ∧ (log_open_file w file).2.events = w.events ∧
      (log_open_file w file).2.answers = w.answers ∧
      Opens w id file none (log_open_file w file).2 := by
  unfold log_open_file
  split_ifs with hfile
  · exact .inl ⟨(by decide : LOG_EINSANE < 0), rfl⟩
  · rcases get_log_id_spec w with hid | ⟨i, hi, hfree, hid⟩
    · rw [hid]
      exact .inl ⟨(by decide : LOG_ENOMORELOGS < 0), rfl⟩
    · rw [hid]
      dsimp only
      rw [if_neg (Int.not_lt.mpr (Int.natCast_nonneg i)), Int.toNat_natCast, put_put]
      refine .inr ⟨i, rfl, hi, hfile, rfl, rfl, hfree, ?_, ?_, ?_, fun j hj => ?_⟩
      · rw [put_self]
      · rw [put_self]
      · rw [put_self]
      · rw [put_other _ _ hj]
        exact SameFile.refl _

theorem log_open_opens (w : Logger) (filename : CString) (hname : filename.bytes ≠ []) :
    (log_open w (some filename)).2.events = w.events ++ [.fopen filename] ∧
      ((log_open w (some filename)).1 < 0 ∧ (log_open w (some filename)).2.loglist = w.loglist ∨
        ∃ id : Nat, (log_open w (some filename)).1 = id ∧ id < LOG_MAXLOGS ∧
          Opens w id (w.answers.fopen 0) (if w.answers.strdup 0 then some filename else none)
            (log_open w (some filename)).2) := by
  unfold log_open
  dsimp only
  rw [if_neg hname]
  rcases log_open_file_opens (w.fopen filename).2 (w.fopen filename).1 with
    ⟨hneg, hsame⟩ | ⟨id, hid, hlt, -, hevents, hanswers, hopens⟩
  · rw [if_neg (Int.not_le.mpr hneg), hsame]
    exact ⟨rfl, .inl ⟨hneg, rfl⟩⟩
  · rw [hid, if_pos (Int.natCast_nonneg id), Int.toNat_natCast]
    generalize log_open_file (w.fopen filename).2 (w.fopen filename).1 =
      r at hevents hanswers hopens ⊢
    obtain ⟨ret, w1⟩ := r
    dsimp only at hevents hanswers hopens ⊢
    have hothers (j : Nat) (hj : j ≠ id) : SameFile (w.loglist j) (w1.loglist j) :=
      hopens.others j hj
    refine ⟨hevents, .inr ⟨id, rfl, hlt, hopens.free, ?_, ?_, ?_, fun j hj => ?_⟩⟩
    · simpa [Logger.put, Logger.stat, Logger.strdup] using hopens.in_use
    · simpa [Logger.put, Logger.stat, Logger.strdup, Logger.fopen] using hopens.logfile
    · simp [Logger.put, Logger.stat, Logger.strdup, hanswers, Logger.fopen, Logger.record]
    · simpa [Logger.put, Logger.stat, Logger.strdup, Function.update_of_ne hj] using hothers j hj

theorem log_set_filename_names (w : Logger) (id : Int) (filename : Option CString) :
    (log_set_filename w id filename).2.events = w.events ∧
      ∀ j, ((log_set_filename w id filename).2.loglist j).in_use = (w.loglist j).in_use ∧
        ((log_set_filename w id filename).2.loglist j).logfile = (w.loglist j).logfile ∧
        (((log_set_filename w id filename).2.loglist j).filename = (w.loglist j).filename ∨
          slot_named id = some j ∧ ∀ m, ((log_set_filename w id filename).2.loglist j).filename =
          some m → filename = some m) := by
  have hput (name : Option CString) (hid : valid id = true)
    (hname : ∀ m, name = some m → filename = some m) (j : Nat) :
      ((w.put id.toNat fun log => { log with filename := name }).loglist j).in_use =
        (w.loglist j).in_use ∧
        ((w.put id.toNat fun log => { log with filename := name }).loglist j).logfile =
          (w.loglist j).logfile ∧
        (((w.put id.toNat fun log => { log with filename := name }).loglist j).filename =
          (w.loglist j).filename ∨
          slot_named id = some j ∧
            ∀ m, ((w.put id.toNat fun log => { log with filename := name }).loglist j).filename =
              some m → filename = some m) := by
    by_cases hj : j = id.toNat
    · subst hj
      rw [put_self]
      exact ⟨rfl, rfl, .inr ⟨if_pos hid, hname⟩⟩
    · rw [put_other _ _ hj]
      exact ⟨rfl, rfl, .inl rfl⟩
  unfold log_set_filename
  split_ifs with hid
  · exact ⟨rfl, fun j => ⟨rfl, rfl, .inl rfl⟩⟩
  · cases filename with
    | none => exact ⟨rfl, hput none hid fun m hm => hm⟩
    | some filename =>
      refine ⟨rfl, hput (w.strdup filename).1 hid fun m hm => ?_⟩
      unfold Logger.strdup at hm
      dsimp only at hm
      split_ifs at hm
      exact hm
  · exact ⟨rfl, fun j => ⟨rfl, rfl, .inl rfl⟩⟩

end Calls

/-! ## Runs -/

/-- The logs with the files of the program, the files that were renamed, and the lines that each log
was told. -/
structure World where
  logger : Logger
  disk : Files
  renamed : List (Bytes × Bytes)
  told : Nat → Bytes

/-- A call, and whether `rename` succeeds in it. -/
abbrev Step := Call × Bool

/-- The new events are played on the files. No call opens more than one file. -/
def World.step (x : World) (a : Step) : C World := do
  let w ← call x.logger a.1
  return {
    logger := w
    disk := (w.events.drop x.logger.events.length).foldl
      (play (x.logger.answers.fopen 0) a.2) x.disk
    renamed := x.renamed ++ moves a.2 (w.events.drop x.logger.events.length)
    told := fun id => x.told id ++ line_taken x.logger id a.1 }

/-- A call that leaves the log `id` its name `n`, its files and its handle. `fopen` returns none
that another log has. -/
def Away (n : CString) (id : Nat) (x : World) (c : Call) : Prop :=
  (∀ f, x.logger.answers.fopen 0 = some f → ∀ j, (x.logger.loglist j).logfile = some f →
    c.subject x.logger = some j) ∧
    match c with
    | .log_open filename => ∀ m, filename = some m → Clear n m
    | .log_open_file file => ∀ f, file = some f → ∀ name, Belongs n name → ¬ x.disk.Leads f name
    | .log_set_filename log_id filename =>
      slot_named log_id ≠ some id ∧ ∀ m, filename = some m → Clear n m
    | .log_close log_id => slot_named log_id ≠ some id
    | _ => True

/-- The handles of the other logs. -/
def Others (w : Logger) (id : Nat) (g : FILE) : Prop := ∃ j ≠ id, (w.loglist j).logfile = some g

/-- The log `id` has the name `n`, all that it was told since there was `before`, and archives with
these names. -/
structure Filed (n : CString) (id : Nat) (before told : Bytes) (names : List Bytes)
    (x : World) : Prop where
  disk : ∃ archives, archives.map (·.1) = names ∧
    On_disk n before told archives x.disk (x.logger.loglist id).logfile (Others x.logger id)
  in_use : (x.logger.loglist id).in_use = true
  filename : (x.logger.loglist id).filename = some n
  clear : ∀ j ≠ id, ∀ m, (x.logger.loglist j).filename = some m → Clear n m

section Runs

variable {n : CString} {id : Nat} {before told : Bytes} {names : List Bytes}
  {moved : List (Bytes × Bytes)} {x y : World} {a : Step} {w w' : Logger}

theorem step_files {events : List Event} (h : w'.events = w.events ++ events) :
    w'.events.drop w.events.length = events := by
  rw [h, List.drop_left]

theorem others_same (h : ∀ j ≠ id, SameFile (w.loglist j) (w'.loglist j)) :
    ∀ g, Others w' id g → Others w id g := by
  rintro g ⟨j, hj, hg⟩
  exact ⟨j, hj, (h j hj).logfile.symm.trans hg⟩

/-- The other logs change, and the files with them. -/
theorem Filed.elsewhere {d : Files} {others : FILE → Prop} (h : Filed n id before told names x)
    (hid : SameFile (x.logger.loglist id) (w'.loglist id))
    (hdisk : ∀ archives, On_disk n before told archives x.disk (x.logger.loglist id).logfile
      (Others x.logger id) →
      On_disk n before told archives d (x.logger.loglist id).logfile others)
    (hothers : ∀ g, Others w' id g → others g)
    (hnames : ∀ j ≠ id, ∀ m, (w'.loglist j).filename = some m →
      (x.logger.loglist j).filename = some m ∨ Clear n m)
    (line : Nat → Bytes) : Filed n id before told names ⟨w', d, moved, line⟩ := by
  obtain ⟨archives, hnamed, hall⟩ := h.disk
  have hall' := (hdisk archives hall).others_le hothers
  rw [← hid.logfile] at hall'
  refine ⟨⟨archives, hnamed, hall'⟩, hid.in_use.trans h.in_use, hid.filename.trans h.filename,
    fun j hj m hm => ?_⟩
  exact (hnames j hj m hm).elim (h.clear j hj m) fun hclear => hclear

/-- What another log `j` has does not count among the others here. -/
def Rest (w : Logger) (id j : Nat) (g : FILE) : Prop :=
  ∃ i, i ≠ id ∧ i ≠ j ∧ (w.loglist i).logfile = some g

theorem rest_le {j : Nat} (hj : j ≠ id) :
    ∀ g, Beside (Rest w id j) (w.loglist j).logfile g → Others w id g := by
  rintro g (⟨i, hi, -, hg⟩ | hg)
  · exact ⟨i, hi, hg⟩
  · exact ⟨j, hj, hg⟩

theorem le_rest {j : Nat} (h : ∀ i ≠ j, SameFile (w.loglist i) (w'.loglist i)) :
    ∀ g, Others w' id g → Beside (Rest w id j) (w'.loglist j).logfile g := by
  rintro g ⟨i, hi, hg⟩
  by_cases hij : i = j
  · exact .inr (hij ▸ hg)
  · exact .inl ⟨i, hi, hij, (h i hij).logfile.symm.trans hg⟩

theorem Filed.works {c : Call} {j : Nat} {events : List Event} (h : Filed n id before told names x)
    (hw : Works x.logger c j events w')
    (hanswer : ∀ f, x.logger.answers.fopen 0 = some f → ∀ i, (x.logger.loglist i).logfile = some f →
      c.subject x.logger = some i)
    (hclose : ∀ log_id, c = .log_close log_id → slot_named log_id ≠ some id) (renamed : Bool)
    (line : Nat → Bytes) :
    Filed n id before (told ++ line_taken x.logger id c)
      (names ++ targets n.bytes (moves renamed events))
      ⟨w', events.foldl (play (x.logger.answers.fopen 0) renamed) x.disk, moved, line⟩ := by
  obtain ⟨hsubject, hacts, hlines, huse⟩ := hw
  -- A handle that `fopen` returns is the one that was closed before.
  have hown {f : FILE} {i : Nat} (hf : x.logger.answers.fopen 0 = some f)
      (hi : (x.logger.loglist i).logfile = some f) : i = j :=
    Option.some.inj ((hanswer f hf i hi).symm.trans hsubject)
  have hnames (i : Nat) : (w'.loglist i).filename = (x.logger.loglist i).filename := by
    by_cases hi : i = j
    · rw [hi]
      exact hacts.filename
    · exact (hacts.others i hi).filename
  by_cases hj : id = j
  · subst hj
    have hfresh (f : FILE) (hf : x.logger.answers.fopen 0 = some f) : ¬ Others x.logger id f := by
      rintro ⟨i, hi, hfile⟩
      exact hi (hown hf hfile)
    have hfiling := hacts.filing
    rw [h.filename] at hfiling
    obtain ⟨archives, rfl, hdisk⟩ := h.disk
    obtain ⟨archives', hnamed, hdisk'⟩ := hfiling.own hfresh renamed hdisk
    rw [← hlines]
    refine ⟨⟨archives', hnamed, hdisk'.others_le (others_same hacts.others)⟩,
      (huse fun log_id hc => ?_).trans h.in_use,
      (hnames id).trans h.filename, fun i hi m hm => h.clear i hi m ((hnames i).symm.trans hm)⟩
    rw [hc] at hsubject
    exact hclose log_id hc hsubject
  · have hclear := h.clear j (Ne.symm hj)
    rw [line_taken_ne hsubject hj, List.append_nil, hacts.filing.targets_away hclear,
      List.append_nil]
    have hmine (f : FILE) (hf : x.logger.answers.fopen 0 = some f) :
        (x.logger.loglist id).logfile ≠ some f :=
      fun hid => hj (hown hf hid)
    refine h.elsewhere (hacts.others id hj) (fun archives hdisk => ?_) (le_rest hacts.others)
      (fun i _ m hm => .inl ((hnames i).symm.trans hm)) line
    exact hacts.filing.away hclear hmine renamed (hdisk.others_le (rest_le (Ne.symm hj)))

theorem Filed.still (h : Filed n id before told names x) (hw : Still x.logger w')
    (line : Nat → Bytes) :
    Filed n id before told names ⟨w', x.disk, moved, line⟩ :=
  h.elsewhere (hw.files id) (fun _ hdisk => hdisk) (others_same fun j _ => hw.files j)
    (fun j _ _ hm => .inl ((hw.files j).filename.symm.trans hm)) line

/-- Another log `j` is opened, with a file that was opened as `file`. -/
theorem Filed.opens {j : Nat} {file : Option FILE} {name : Option CString} {d : Files}
    (h : Filed n id before told names x) (hopens : Opens x.logger j file name w')
    (hname : ∀ m, name = some m → Clear n m)
    (hdisk : ∀ archives, On_disk n before told archives x.disk (x.logger.loglist id).logfile
      (Others x.logger id) →
      On_disk n before told archives d (x.logger.loglist id).logfile
        (Beside (Others x.logger id) file)) (line : Nat → Bytes) :
    Filed n id before told names ⟨w', d, moved, line⟩ := by
  have hj : id ≠ j := by
    rintro rfl
    exact absurd (h.in_use.symm.trans hopens.free) (by simp)
  refine h.elsewhere (hopens.others id hj) hdisk ?_ (fun i hi m hm => ?_) line
  · rintro g ⟨i, hi, hg⟩
    by_cases hij : i = j
    · rw [hij, hopens.logfile] at hg
      exact .inr hg
    · exact .inl ⟨i, hi, (hopens.others i hij).logfile.symm.trans hg⟩
  · by_cases hij : i = j
    · rw [hij, hopens.filename] at hm
      exact .inr (hname m hm)
    · exact .inl ((hopens.others i hij).filename.symm.trans hm)

theorem slot_named_neg {log_id : Int} (h : log_id < 0) : slot_named log_id = none := by
  refine if_neg ?_
  simp only [valid, decide_eq_true_eq, not_not]
  exact .inl h

theorem Filed.log_open (h : Filed n id before told names x) {filename : CString}
    (hname : filename.bytes ≠ []) (haway : Away n id x (.log_open (some filename))) (renamed : Bool)
    (line : Nat → Bytes) :
    Filed n id before told names ⟨(Log.log_open x.logger (some filename)).2,
      play (x.logger.answers.fopen 0) renamed x.disk (.fopen filename), moved, line⟩ := by
  obtain ⟨hanswer, hclear⟩ := haway
  replace hclear := hclear filename rfl
  obtain ⟨-, hopens⟩ := log_open_opens x.logger filename hname
  have hsubject : slot_named (Log.log_open x.logger (some filename)).1 ≠ some id := by
    rcases hopens with ⟨hneg, -⟩ | ⟨j, hj, hlt, hopens⟩
    · rw [slot_named_neg hneg]
      simp
    · rw [hj, slot_named_lt hlt]
      rintro hid
      obtain rfl := Option.some.inj hid
      exact absurd (h.in_use.symm.trans hopens.free) (by simp)
  have hdisk (archives : List (Bytes × Bytes))
      (hall : On_disk n before told archives x.disk (x.logger.loglist id).logfile
        (Others x.logger id)) :
      On_disk n before told archives
        (play (x.logger.answers.fopen 0) renamed x.disk (.fopen filename))
        (x.logger.loglist id).logfile (Beside (Others x.logger id) (x.logger.answers.fopen 0)) := by
    cases hf : x.logger.answers.fopen 0 with
    | none => exact hall.others_le fun g hg => hg.resolve_right (by simp)
    | some f => exact hall.away_fopen hclear fun hmine => hsubject (hanswer f hf id hmine)
  rcases hopens with ⟨-, hslots⟩ | ⟨j, -, -, hopens⟩
  · have hsame (j : Nat) :
        SameFile (x.logger.loglist j) ((Log.log_open x.logger (some filename)).2.loglist j) := by
      rw [hslots]
      exact SameFile.refl _
    refine h.elsewhere (hsame id) hdisk (fun g hg =>
      .inl (others_same (fun j _ => hsame j) g hg)) ?_ line
    exact fun j _ m hm => .inl ((hsame j).filename.symm.trans hm)
  · refine h.opens hopens (fun m hm => ?_) hdisk line
    split_ifs at hm
    exact Option.some.inj hm ▸ hclear

theorem Filed.log_open_file (h : Filed n id before told names x) {file : Option FILE}
    (haway : Away n id x (.log_open_file file)) (line : Nat → Bytes) :
    Filed n id before told names ⟨(Log.log_open_file x.logger file).2, x.disk, moved, line⟩ := by
  rcases log_open_file_opens x.logger file with ⟨-, hsame⟩ | ⟨j, -, -, -, -, -, hopens⟩
  · rw [hsame]
    exact h.still (still_same rfl rfl) line
  · exact h.opens hopens (by simp) (fun _ hdisk => hdisk.beside haway.2) line

theorem Filed.log_set_filename (h : Filed n id before told names x) {log_id : Int}
    {filename : Option CString} (haway : Away n id x (.log_set_filename log_id filename))
    (line : Nat → Bytes) :
    Filed n id before told names ⟨(Log.log_set_filename x.logger log_id filename).2, x.disk,
      moved, line⟩ := by
  obtain ⟨hid, hclear⟩ := haway.2
  have hnames := (log_set_filename_names x.logger log_id filename).2
  obtain ⟨huse, hfile, hname⟩ := hnames id
  refine h.elsewhere ⟨huse, hname.resolve_right fun hnamed => hid hnamed.1, hfile⟩ (fun _ hdisk =>
    hdisk) ?_ (fun j _ m hm => ?_) line
  · rintro g ⟨j, hj, hg⟩
    exact ⟨j, hj, (hnames j).2.1.symm.trans hg⟩
  · exact (hnames j).2.2.imp (fun hold => hold.symm.trans hm) fun hnamed => hclear m (hnamed.2 m hm)

/-- One call. The renamings of the file make archives of it. -/
theorem Filed.step (h : Filed n id before told names x) (haway : Away n id x a.1) :
    Yields (x.step a) fun y =>
    y.told id = x.told id ++ line_taken x.logger id a.1 ∧ ∃ moved, y.renamed = x.renamed ++ moved ∧
      Filed n id before (told ++ line_taken x.logger id a.1)
        (names ++ targets n.bytes moved) y := by
  obtain ⟨c, renamed⟩ := a
  refine yields_bind fun w' hw' => yields_ok ⟨rfl, _, rfl, ?_⟩
  dsimp only at haway hw' ⊢
  have hstill (hw : Still x.logger w') (hline : line_taken x.logger id c = []) {line : Nat → Bytes}
    {moved : List (Bytes × Bytes)} :
      Filed n id before (told ++ line_taken x.logger id c)
        (names ++ targets n.bytes (moves renamed (w'.events.drop x.logger.events.length)))
        ⟨w', (w'.events.drop x.logger.events.length).foldl
          (play (x.logger.answers.fopen 0) renamed) x.disk, moved, line⟩ := by
    rw [hline, List.append_nil, hw.events, List.drop_length]
    simpa [targets, moves] using h.still hw line
  by_cases hc : Named c
  · rcases call_served hc w' hw' with ⟨hw, hline⟩ | ⟨j, events, hworks⟩
    · exact hstill hw (hline id)
    · rw [step_files hworks.acts.adds]
      refine h.works hworks haway.1 ?_ renamed _
      rintro log_id rfl
      exact haway.2
  · cases c with
    | log_open filename =>
      obtain rfl := Except.ok.inj hw'
      cases filename with
      | none => exact hstill (still_same rfl rfl) (line_taken_none rfl)
      | some filename =>
        by_cases hname : filename.bytes = []
        · refine hstill ?_ (line_taken_none rfl)
          unfold Log.log_open
          dsimp only
          rw [if_pos hname]
          exact still_same rfl rfl
        · rw [line_taken_none rfl, List.append_nil,
            step_files (log_open_opens x.logger filename hname).1]
          simpa [targets, moves] using h.log_open hname haway renamed _
    | log_open_file file =>
      obtain rfl := Except.ok.inj hw'
      have hevents : (Log.log_open_file x.logger file).2.events = x.logger.events := by
        rcases log_open_file_opens x.logger file with ⟨-, hsame⟩ | ⟨j, -, -, -, hevents, -⟩
        · rw [hsame]
        · exact hevents
      rw [line_taken_none rfl, List.append_nil, hevents, List.drop_length]
      simpa [targets, moves] using h.log_open_file haway _
    | log_set_filename log_id filename =>
      obtain rfl := Except.ok.inj hw'
      rw [line_taken_none rfl, List.append_nil, (log_set_filename_names x.logger log_id filename).1,
        List.drop_length]
      simpa [targets, moves] using h.log_set_filename haway _
    | _ => exact absurd trivial hc

/-- What each call keeps, a run keeps. -/
theorem Filed.run {steps : List Step} (h : Filed n id before [] [] x)
    (haway : ∀ pre a post z, steps = pre ++ a :: post → pre.foldlM World.step x = .ok z →
      Away n id z a.1) :
    Yields (steps.foldlM World.step x) fun y => ∃ told moved, y.told id = x.told id ++ told ∧
      y.renamed = x.renamed ++ moved ∧
      Filed n id before told (targets n.bytes moved) y := by
  refine run_yields_along _ ⟨[], [], (List.append_nil _).symm, (List.append_nil _).symm, h⟩ ?_
  rintro pre a post z hsteps hpre ⟨told, moved, htold, hmoved, hz⟩ y hy
  obtain ⟨hline, moved', hmoved', hy⟩ := hz.step (haway pre a post z hsteps hpre) y hy
  refine ⟨_, moved ++ moved', ?_, ?_, (targets_append n.bytes moved moved').symm ▸ hy⟩
  · rw [hline, htold, List.append_assoc]
  · rw [hmoved', hmoved, List.append_assoc]

/-- A file that no other log has to do with is opened. -/
theorem opened_filed {renamed : Bool} (hsound : x.disk.Sound) (hn : n.bytes.length < 4095)
    (hopen : (log_open x.logger (some n)).1 = id) (hstrdup : x.logger.answers.strdup 0 = true)
    (hclear : ∀ j ≠ id, ∀ m, (x.logger.loglist j).filename = some m → Clear n m)
    (hothers : ∀ g, Others x.logger id g → x.logger.answers.fopen 0 ≠ some g ∧
      ∀ name, Belongs n name → ¬ x.disk.Leads g name)
    (hstep : x.step (.log_open (some n), renamed) = .ok y) :
    y.told id = x.told id ∧ y.renamed = x.renamed ∧
      Filed n id ((x.disk.content n.bytes).getD []) [] [] y := by
  obtain ⟨w', hw', hy⟩ := bind_eq_ok.mp hstep
  obtain rfl := Except.ok.inj hw'
  obtain rfl := Except.ok.inj hy
  have hname : n.bytes ≠ [] := by
    intro hempty
    unfold log_open at hopen
    dsimp only at hopen
    rw [if_pos hempty] at hopen
    exact absurd hopen (by simp [LOG_EINSANE])
  obtain ⟨hevents, hopens⟩ := log_open_opens x.logger n hname
  obtain ⟨j, hj, -, hopens⟩ := hopens.resolve_left fun hneg => by omega
  obtain rfl : id = j := by omega
  rw [if_pos hstrdup] at hopens
  dsimp only
  rw [step_files hevents, line_taken_none rfl]
  refine ⟨List.append_nil _, List.append_nil _, ⟨[], rfl, ?_⟩, hopens.in_use, hopens.filename,
    fun i hi m hm => ?_⟩
  · have hstart :
        On_disk n ((x.disk.content n.bytes).getD []) [] [] x.disk none (Others x.logger id) :=
      ⟨hsound, hn, by simp, fun g hg => (hothers g hg).2, by simp, by simp, by simp⟩
    have hopened : On_disk n ((x.disk.content n.bytes).getD []) [] []
        ([Event.fopen n].foldl (play (x.logger.answers.fopen 0) renamed) x.disk)
          (x.logger.answers.fopen 0)
        (Others x.logger id) := by
      cases hf : x.logger.answers.fopen 0 with
      | none => exact hstart
      | some f => exact hstart.fopen fun hother => (hothers f hother).1 hf
    dsimp only
    rw [hopens.logfile]
    exact hopened.others_le (others_same hopens.others)
  · exact hclear i hi m ((hopens.others i hi).filename.symm.trans hm)

/-- **Rotation loses nothing.** A log is opened under a name that no other log uses, and not closed
or named again. After every run of calls for all logs, what was in its file when it was opened and
all lines that it was told since are in its archives, one for each renaming of the file, and behind
them in the file. The disk has each archive, as long as no later one gets its name. -/
theorem archives_complete {renamed : Bool} {steps : List Step} {z : World} (hsound : x.disk.Sound)
    (hn : n.bytes.length < 4095) (hopen : (log_open x.logger (some n)).1 = id)
    (hstrdup : x.logger.answers.strdup 0 = true)
    (hclear : ∀ j ≠ id, ∀ m, (x.logger.loglist j).filename = some m → Clear n m)
    (hothers : ∀ g, Others x.logger id g → x.logger.answers.fopen 0 ≠ some g ∧
      ∀ name, Belongs n name → ¬ x.disk.Leads g name)
    (hstep : x.step (.log_open (some n), renamed) = .ok y)
    (haway : ∀ pre a post y', steps = pre ++ a :: post → pre.foldlM World.step y = .ok y' →
      Away n id y' a.1)
    (hrun : steps.foldlM World.step y = .ok z) :
    ∃ told moved archives, z.told id = x.told id ++ told ∧ z.renamed = x.renamed ++ moved ∧
      archives.map (·.1) = targets n.bytes moved ∧
      (archives.map (·.2)).flatten ++ (z.disk.content n.bytes).getD [] =
      (x.disk.content n.bytes).getD [] ++ told ∧
      ∀ pre a text post, archives = pre ++ (a, text) :: post → a ∉ post.map (·.1) →
      z.disk.content a = some text := by
  obtain ⟨hy, hrenamed, hfiled⟩ := opened_filed hsound hn hopen hstrdup hclear hothers hstep
  obtain ⟨told, moved, htold, hmoved, hz⟩ := hfiled.run haway z hrun
  obtain ⟨archives, hnames, hdisk⟩ := hz.disk
  rw [hy] at htold
  rw [hrenamed] at hmoved
  exact ⟨told, moved, archives, htold, hmoved, hnames, hdisk.texts, hdisk.stored⟩

end Runs

/-! ## Two logs -/

/-- The log `0` writes to `b`, and every file has two gigabytes. -/
def beside_b : World where
  logger :=
    (log_open (Log.log_initialize { generous with stat := fun _ => some 2000000000 })
      (some (.cut (ascii "b")))).2
  disk := Disk.openAppend ⟨fun _ => none, fun _ => none, fun _ => [], 0⟩ (ascii "b") 0
  renamed := []
  told := fun _ => []

theorem clear_a_b : Clear (.cut (ascii "a")) (.cut (ascii "b")) := by
  have hfirst (rest : Bytes) : ¬ Belongs (.cut (ascii "a")) (ch 'b' :: rest) := by
    rintro (heq | ⟨t, heq⟩)
    · exact absurd (List.cons.inj heq).1 (by decide)
    · exact absurd (List.cons.inj heq).1 (by decide)
  exact ⟨hfirst [], fun stamp => hfirst _⟩

theorem beside_b_slot {j : Nat} (hj : j ≠ 0) : beside_b.logger.loglist j = unused j := by
  rcases log_open_spec (Log.log_initialize { generous with stat := fun _ => some 2000000000 })
    (some (.cut (ascii "b")))
    with ⟨hneg, -⟩ | ⟨i, hi, hnew⟩
  · exact absurd hneg (by decide)
  · obtain ⟨log, hslots, -⟩ := hnew.slot
    obtain rfl : 0 = i := Int.natCast_inj.mp hi
    exact (congrFun hslots j).trans (Function.update_of_ne hj _ _)

theorem beside_b_handle {j : Nat} {f : FILE}
    (hfile : (beside_b.logger.loglist j).logfile = some f) : j = 0 ∧ f = 0 := by
  by_cases hj : j = 0
  · subst hj
    exact ⟨rfl, (Option.some.inj hfile).symm⟩
  · rw [beside_b_slot hj] at hfile
    cases hfile

theorem beside_b_opens : Opens beside_b.logger 1 (some 1) (some (.cut (ascii "a")))
    (log_open beside_b.logger (some (.cut (ascii "a")))).2 := by
  rcases (log_open_opens beside_b.logger (.cut (ascii "a")) (by decide)).2
    with ⟨hneg, -⟩ | ⟨i, hi, -, hopens⟩
  · exact absurd hneg (by decide)
  · obtain rfl : 1 = i := Int.natCast_inj.mp hi
    exact hopens

/-- The file `a` is rotated before the line is written. -/
def rotating : List Step := [(.log_write_direct 1 ⟨.cut (ascii "x"), x_fits⟩, true)]

theorem archives_complete_beside : ∃ y z told moved archives,
    beside_b.step (.log_open (some (.cut (ascii "a"))), true) = .ok y ∧
      rotating.foldlM World.step y = .ok z ∧
      z.told 1 = beside_b.told 1 ++ told ∧ z.renamed = beside_b.renamed ++ moved ∧
      archives.map (·.1) = targets (CString.cut (ascii "a")).bytes moved ∧
      (archives.map (·.2)).flatten ++ (z.disk.content (CString.cut (ascii "a")).bytes).getD [] =
        (beside_b.disk.content (CString.cut (ascii "a")).bytes).getD [] ++ told ∧
      ∀ pre a text post, archives = pre ++ (a, text) :: post → a ∉ post.map (·.1) →
      z.disk.content a = some text := by
  have hsound : beside_b.disk.Sound := Disk.Sound.openAppend ⟨by simp, by simp, by simp⟩ _ _
  have hopen : (log_open beside_b.logger (some (.cut (ascii "a")))).1 = (1 : Nat) := by decide
  obtain ⟨y, hy⟩ : ∃ y, beside_b.step (.log_open (some (.cut (ascii "a"))), true) = .ok y :=
    ⟨_, rfl⟩
  obtain ⟨z, hz⟩ : ∃ z, rotating.foldlM World.step y = .ok z := by
    obtain rfl := Except.ok.inj hy
    exact ⟨_, rfl⟩
  have hclear (j : Nat) (_ : j ≠ 1) (m : CString)
    (hm : (beside_b.logger.loglist j).filename = some m) :
      Clear (.cut (ascii "a")) m := by
    by_cases hj : j = 0
    · subst hj
      obtain rfl := Option.some.inj hm
      exact clear_a_b
    · rw [beside_b_slot hj] at hm
      cases hm
  have hothers (g : FILE) (hg : Others beside_b.logger 1 g) :
    beside_b.logger.answers.fopen 0 ≠ some g ∧
      ∀ name, Belongs (.cut (ascii "a")) name → ¬ beside_b.disk.Leads g name := by
    obtain ⟨j, -, hfile⟩ := hg
    obtain ⟨-, rfl⟩ := beside_b_handle hfile
    refine ⟨by decide, fun name hname hlead => ?_⟩
    obtain rfl := hsound.leads_unique hlead (Disk.openAppend_leads _ _ _)
    exact clear_a_b.1 hname
  have haway (pre : List Step) (a : Step) (post : List Step) (y' : World)
    (hl : rotating = pre ++ a :: post)
      (hrun : pre.foldlM World.step y = .ok y') : Away (.cut (ascii "a")) 1 y' a.1 := by
    obtain ⟨rfl, rfl⟩ : pre = [] ∧ a = (.log_write_direct 1 ⟨.cut (ascii "x"), x_fits⟩, true) := by
      cases pre with
      | nil => exact ⟨rfl, (List.cons.inj hl).1.symm⟩
      | cons b pre => exact absurd (List.cons.inj hl).2 (by simp)
    obtain rfl := Except.ok.inj hrun
    obtain rfl := Except.ok.inj hy
    refine ⟨fun f hf j hj => ?_, trivial⟩
    obtain rfl := Option.some.inj hf
    by_cases hj1 : j = 1
    · rw [hj1]
      rfl
    · have hold := (beside_b_opens.others j hj1).logfile.symm.trans hj
      exact absurd (beside_b_handle hold).2 (by decide)
  obtain ⟨told, moved, archives, h⟩ :=
    archives_complete hsound (by decide) hopen rfl hclear hothers hy haway hz
  exact ⟨y, z, told, moved, archives, hy, hz, h⟩

end Log
