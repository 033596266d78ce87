import Phiola.File.Buffered

/-!
# Replacing a file through a temporary name

With `name_tmp` the filter writes `NAME.tmp` and renames it in the end. When it is closed
before its last chunk, `fw_close()` removes `NAME` instead of `NAME.tmp`.
-/

namespace Phiola

open Overlay

/-- `fw_open()` can create `NAME.tmp`. -/
def CanOpen (sys : Sys) (conf : OFile) (d : Dir) : Prop :=
  sys.openOk = true ∧
    (conf.overwrite = true ∨ d conf.name = none ∧ d (tmpName conf.name) = none)

instance (sys : Sys) (conf : OFile) (d : Dir) : Decidable (CanOpen sys conf d) :=
  inferInstanceAs (Decidable (sys.openOk = true ∧
    (conf.overwrite = true ∨ d conf.name = none ∧ d (tmpName conf.name) = none)))

/-- The life of the filter: opened, called and closed by the conveyor. The result is the last
one of `process()`, `none` for a filter that didn't open. -/
def session (sys : Sys) (conf : OFile) (d : Dir) (calls : List FwCall) :
    Option (Option PhiR × Dir) :=
  match fwOpen sys conf d with
  | (none, d') => if calls = [] then some (none, d') else none
  | (some f, d') =>
    (Machine.run (FwRun.step sys) ⟨.more, f, d'⟩ calls).map fun s =>
      (some s.ret, fwClose sys s.f s.dir)

/-- Nothing is lost by a failure, and a success replaces the file. -/
structure Replaces (sys : Sys) (conf : OFile) (d : Dir) (calls : List FwCall)
    (ret : Option PhiR) (d' : Dir) : Prop where
  unfinished : (∀ c ∈ calls, c.first = false) →
    d' conf.name = d conf.name ∧ (ret ≠ none → d' (tmpName conf.name) = none)
  finished : ret = some .done → sys.truncOk = true → sys.closeOk = true →
    sys.renameOk = true → (∀ p ∈ chunksFrom 0 calls, Writable p) →
    (∃ c, d' conf.name = some c ∧
      Delivered ((d (tmpName conf.name)).getD []) (chunksFrom 0 calls) c) ∧
    d' (tmpName conf.name) = none

variable {sys : Sys} {conf : OFile} {d d' : Dir} {calls : List FwCall}

variable (sys d) in
theorem fffileOpen_isSome_iff (name : String) (new : Bool) :
    (fffileOpen sys d name new).isSome = true ↔
      sys.openOk = true ∧ (new = false ∨ d name = none) := by
  unfold fffileOpen
  cases sys.openOk <;> cases d name <;> cases new <;> simp

/-- The filter opens exactly when it can create `NAME.tmp`; otherwise nothing happens. -/
theorem fwOpen_canOpen (htmp : conf.nameTmp = true) {f : Option FileW}
    (h : fwOpen sys conf d = (f, d')) :
    (f.isSome = true ↔ CanOpen sys conf d) ∧ (f = none → d' = d) := by
  unfold CanOpen
  simp only [fwOpen, htmp, if_true, true_and] at h
  have hopen := fffileOpen_isSome_iff sys d (tmpName conf.name) (!conf.overwrite)
  split at h
  · rename_i hexists
    simp only [Prod.mk.injEq] at h
    obtain ⟨rfl,rfl⟩ := h
    obtain ⟨hover,hsome⟩ := hexists
    have hnone : d conf.name ≠ none := Option.isSome_iff_ne_none.mp hsome
    have hoff : conf.overwrite = false := by simpa using hover
    simp [hnone,hoff,fwClose]
  · rename_i hexists
    split at h
    · rename_i hfile
      simp only [Prod.mk.injEq] at h
      obtain ⟨rfl,rfl⟩ := h
      rw [hfile] at hopen
      refine ⟨?_, fun _ => rfl⟩
      simp only [Option.isSome_none, Bool.false_eq_true, false_iff, Bool.not_eq_eq_eq_not,
        Bool.not_false] at hopen ⊢
      rintro ⟨hok,hover | ⟨_,hfree⟩⟩
      · exact hopen ⟨hok, .inl hover⟩
      · exact hopen ⟨hok, .inr hfree⟩
    · rename_i d'' hfile
      simp only [Prod.mk.injEq] at h
      obtain ⟨rfl,rfl⟩ := h
      rw [hfile] at hopen
      obtain ⟨hok,hfree⟩ := hopen.mp rfl
      refine ⟨?_, fun h => by cases h⟩
      simp only [Option.isSome_some, true_iff]
      refine ⟨hok, ?_⟩
      by_cases hover : conf.overwrite = true
      · exact .inl hover
      · right
        have hoff : conf.overwrite = false := by simpa using hover
        exact ⟨by simpa [hoff] using hexists, by simpa [hoff] using hfree⟩

/-- `PHI_DONE` is the answer to a last chunk. -/
theorem run_first {s s' : FwRun} (hrun : Machine.run (FwRun.step sys) s calls = some s')
    (hret : s.ret = .more) (hfin : s.f.fin = false) (hdone : s'.ret = .done) :
    ∃ c ∈ calls, c.first = true := by
  induction calls generalizing s with
  | nil =>
    simp only [Machine.run, List.foldlM_nil, Option.pure_def, Option.some.injEq] at hrun
    rw [← hrun, hret] at hdone
    cases hdone
  | cons c calls ih =>
    obtain ⟨m,hm,hrest⟩ := Machine.run_cons_eq_some.mp hrun
    obtain ⟨_,hr,hf,_⟩ := FwRun.step_some hm
    have hmark := fwLoop_fin sys s.dir (c.seek.getD s.f.offCur) c.first c.dataIn hfin
    by_cases hc : c.first = true
    · exact ⟨c, List.mem_cons_self, hc⟩
    · have hmfin : m.f.fin = false := by
        rw [hf, ← Bool.not_eq_true]
        exact fun h => hc (hmark.2.1 (hmark.1.mp h))
      have hmret : m.ret = .more := by
        cases calls with
        | nil =>
          simp only [Machine.run, List.foldlM_nil, Option.pure_def, Option.some.injEq] at hrest
          exact absurd (hmark.2.1 (by rw [← hdone, ← hrest, hr]; rfl)) hc
        | cons c' calls =>
          obtain ⟨m',hm',_⟩ := Machine.run_cons_eq_some.mp hrest
          exact (FwRun.step_some hm').1
      obtain ⟨c',hmem,hfirst⟩ := ih hrest hmret hmfin
      exact ⟨c', List.mem_cons_of_mem c hmem, hfirst⟩

variable (sys) in
/-- Without the mark `fin`, `fw_close()` leaves the temporary file where it is. -/
theorem fwClose_unfinished {f : FileW} {fn : String} {c : Bytes} (hfd : f.fd = some fn)
    (hfin : f.fin = false) (hfile : d fn = some c) (hne : f.name ≠ fn) :
    fwClose sys f d fn ≠ none := by
  unfold fwClose
  simp only [hfd, hfile, hfin, Option.map_some, Bool.not_false, if_true]
  have hkeep : ((if sys.truncOk = true then d.set fn (some (trunc c f.size)) else d) : Dir) fn ≠
      none := by
    split
    · simp
    · simp [hfile]
  split
  · exact hkeep
  · unfold fffileRemove
    split
    · rw [Dir.set_other hne.symm]
      exact hkeep
    · exact hkeep

/-- The replacement is as it should be exactly when the filter either couldn't create
`NAME.tmp` or has got its last chunk. -/
theorem replacement (sys : Sys) (conf : OFile) (d d' : Dir) (calls : List FwCall)
    (ret : Option PhiR) (htmp : conf.nameTmp = true)
    (hrun : session sys conf d calls = some (ret, d')) :
    Replaces sys conf d calls ret d' ↔
      (CanOpen sys conf d → ∃ c ∈ calls, c.first = true) := by
  unfold session at hrun
  split at hrun
  · rename_i d'' hopen
    obtain ⟨hcan,hsame⟩ := fwOpen_canOpen htmp hopen
    have hnot : ¬ CanOpen sys conf d := by rw [← hcan]; decide
    split at hrun
    · simp only [Option.some.injEq, Prod.mk.injEq] at hrun
      obtain ⟨rfl,rfl⟩ := hrun
      refine ⟨fun _ h => absurd h hnot, fun _ => ⟨fun _ => ⟨?_, fun h => absurd rfl h⟩, ?_⟩⟩
      · rw [hsame rfl]
      · intro h
        cases h
    · cases hrun
  · rename_i f d'' hopen
    have hcan : CanOpen sys conf d := (fwOpen_canOpen htmp hopen).1.mp rfl
    obtain ⟨s,hs,heq⟩ := Option.map_eq_some_iff.mp hrun
    simp only [Prod.mk.injEq] at heq
    obtain ⟨rfl,rfl⟩ := heq
    obtain ⟨fn,hfn,hfd,hconf,_,_,_,hfin,_,hkept⟩ := fwOpen_some hopen
    have hfn' : fn = tmpName conf.name := by rw [hfn, if_pos htmp]
    have hk := FwRun.run_kept hs hkept
    constructor
    · intro hrep _
      by_contra hnone
      have hnofirst : ∀ c ∈ calls, c.first = false := by
        intro c hc
        by_contra h
        exact hnone ⟨c, hc, by simpa using h⟩
      have hsfin : s.f.fin = false := by
        rw [← Bool.not_eq_true]
        intro h
        exact hnone (run_first hs rfl hfin ((FwRun.run_fin hs (by simp [hfin])).mp h))
      have hne : s.f.name ≠ fn := by
        rw [hk.name, hconf, hfn']
        exact (tmpName_ne conf.name).symm
      have hleft := fwClose_unfinished sys (hk.fd.trans hfd) hsfin (hk.file fn hfd) hne
      exact hleft (hfn' ▸ (hrep.unfinished hnofirst).2 (by simp))
    · intro hfirst
      obtain ⟨c,hc,hcfirst⟩ := hfirst hcan
      constructor
      · intro hnone
        rw [hnone c hc] at hcfirst
        cases hcfirst
      · intro hdone htrunc hclose hren hchunks
        obtain ⟨c',hname,hdel,hgone,_⟩ := delivered_of_done hopen hs (Option.some.inj hdone) htrunc
          (fun _ => ⟨hclose, hren⟩) hchunks
        rw [hfd, hfn'] at hdel
        exact ⟨⟨c', hname, hdel⟩, hgone htmp⟩

/-- A saved playlist, one byte long, that is written again. -/
def savedList : Dir := emptyDir.set "list.m3u" (some [1])

def saveConf : OFile := ⟨"list.m3u", true, true, 1024 * 1024⟩

/-- The producer fails after the first chunk. -/
def failedSave : List FwCall := [⟨false, none, [2, 3]⟩]

/-- The directory after it. -/
def failedDir : Dir := ((session goodSys saveConf savedList failedSave).map Prod.snd).getD emptyDir

private theorem session_failedSave :
    session goodSys saveConf savedList failedSave = some (some .more, failedDir) := by
  have hret : (session goodSys saveConf savedList failedSave).map Prod.fst = some (some .more) := by
    decide +kernel
  obtain ⟨p,hp,hfst⟩ := Option.map_eq_some_iff.mp hret
  have hsnd : failedDir = p.2 := by rw [failedDir, hp]; rfl
  rw [hp, hsnd, ← hfst]

theorem replacement_failed_save :
    Replaces goodSys saveConf savedList failedSave (some .more) failedDir ↔
      (CanOpen goodSys saveConf savedList → ∃ c ∈ failedSave, c.first = true) :=
  replacement goodSys saveConf savedList failedDir failedSave (some .more) rfl session_failedSave

/-- The saved playlist is gone and the temporary file is left. -/
theorem failed_save_removes_target :
    session goodSys saveConf savedList failedSave = some (some .more, failedDir) ∧
      failedDir "list.m3u" = none ∧ failedDir "list.m3u.tmp" = some [] ∧
      ¬ Replaces goodSys saveConf savedList failedSave (some .more) failedDir := by
  have hgone : failedDir "list.m3u" = none := by decide +kernel
  refine ⟨session_failedSave, hgone, by decide +kernel, ?_⟩
  intro h
  have hsame : failedDir "list.m3u" = some [1] := (h.unfinished (by decide)).1
  rw [hgone] at hsame
  cases hsame

end Phiola
