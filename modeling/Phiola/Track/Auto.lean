import Phiola.File.Disk
import Phiola.Format.Detector
import Phiola.Track.Chain

/-!
# Filters that choose filters

The automatic filters put others into the chain, by the name of a file, by its data or by the modules that are
there, and leave the chain. A track goes on with the filters that came into their place.
-/

namespace Phiola

namespace Conveyor

/-- The filters of the chain -/
def ifaces (v : Conveyor) : List PhiFilter := v.filters.map fun k => (v.filtersPool k).iface

def ifacesOf (v : Conveyor) (l : List Nat) : List PhiFilter := l.map fun k => (v.filtersPool k).iface

/-- Calls of `track->filter(t, i, 0)` -/
def nexts (is : List PhiFilter) : List (Option PhiFilter × FilterPos) := is.map fun i => (some i,.next)

variable {v : Conveyor} {F R : List Nat} {f : Nat}

/-- Each filter is put right behind the current one, so the last one that is added comes first. -/
theorem addAll_nexts {is : List PhiFilter} (h : v.At F f R) (hroom : v.iFpool + is.length ≤ maxFilters) :
    ∃ new, (v.addAll (nexts is)).At F f (new ++ R) ∧ (v.addAll (nexts is)).ifacesOf new = is.reverse ∧
      (v.addAll (nexts is)).iFpool = v.iFpool + is.length ∧
      ∀ k < v.iFpool,(v.addAll (nexts is)).filtersPool k = v.filtersPool k := by
  induction is generalizing v R with
  | nil => exact ⟨[],h,rfl,rfl,fun _ _ => rfl⟩
  | cons i is ih =>
    simp only [List.length_cons] at hroom
    rcases trackFilter_cases v (some i) .next F R f h.filters h.cur with ⟨-,-,hn⟩ | ⟨j,hj,-,-,hv⟩
    · rcases hn with hn | hn
      · cases hn
      · omega
    · obtain rfl : i = j := by simpa using hj
      have hat : (v.trackFilter (some i) .next).1.At F f (v.iFpool :: R) := by
        rw [hv]
        exact ⟨rfl,h.cur⟩
      have hpool : (v.trackFilter (some i) .next).1.iFpool = v.iFpool + 1 := by rw [hv]
      obtain ⟨new,hnew,hi,hp,hold⟩ := ih hat (by omega)
      refine ⟨new ++ [v.iFpool],?_,?_,?_,?_⟩
      · rw [List.append_assoc]
        exact hnew
      · have hi' := hi
        rw [ifacesOf] at hi'
        have hlast := hold v.iFpool (by omega)
        simp only [nexts,List.map_cons,addAll_cons] at hi' hlast ⊢
        rw [ifacesOf,List.map_append,hi',List.map_singleton,hlast,hv,List.reverse_cons]
        simp
      · simp only [nexts,List.map_cons,addAll_cons] at hp ⊢
        rw [hp,hpool,List.length_cons]
        omega
      · intro k hk
        have hk' := hold k (by omega)
        simp only [nexts,List.map_cons,addAll_cons] at hk' ⊢
        rw [hk',hv]
        simp [Nat.ne_of_lt hk]

theorem setFilter_same (v : Conveyor) (f : Nat) : v.setFilter f (v.filtersPool f) = v := by
  rw [setFilter,Function.update_eq_self]

end Conveyor

namespace PhiTrack

open Conveyor (ifacesOf nexts)

/-- The loop comes to a filter that has not been opened. -/
structure Comes (t : PhiTrack) (F : List Nat) (f : Nat) (R : List Nat) : Prop where
  at' : t.conveyor.At F f R
  ok : t.conveyor.Ok
  obj : (t.conveyor.filtersPool f).obj = none
  mark : (t.conveyor.filtersPool f).backwardSkip = false
  hasOpen : (t.conveyor.filtersPool f).iface.hasOpen = true

variable {t : PhiTrack} {F R : List Nat} {f : Nat} {b : Behaviour}

theorem run_open (h : t.Comes F f R) : ∃ u : PhiTrack,u.conveyor = t.conveyor ∧ u.dataIn = t.dataIn ∧
    u.error = t.error ∧ t.trkFilterRun f b =
      match u.filterOpen f b with
      | (t,.inr r) => (t,r)
      | (t,.inl o) => t.filterProcess f o b := by
  have hv : t.conveyor.setFilter f {t.conveyor.filtersPool f with backwardSkip := false} = t.conveyor := by
    rw [← h.mark]
    exact t.conveyor.setFilter_same f
  refine ⟨(t.clearMark f).setFirst,?_,rfl,rfl,?_⟩
  · exact hv
  · have hm := h.mark
    have ho := h.obj
    have hrun := trkFilterRun.eq_def t f b
    simp only [hm,Bool.false_eq_true,false_and,if_false,ho] at hrun
    exact hrun

/-- `open()` adds filters and returns `PHI_OPEN_SKIP`. -/
theorem run_skip {is : List PhiFilter} (h : t.Comes F f R) (hadds : b.openAdds = nexts is)
    (hopenIn : b.openIn = none) (hret : b.openRet = .skip) :
    (t.trkFilterRun f b).2 = .done ∧ (t.trkFilterRun f b).1.conveyor = t.conveyor.addAll (nexts is) ∧
      (t.trkFilterRun f b).1.dataOut = t.dataIn := by
  obtain ⟨u,hv,hin,-,hrun⟩ := run_open (b := b) h
  have ho : u.filterOpen f b = ({
      u with
      conveyor := u.conveyor.addAll b.openAdds
      dataOut := u.dataIn
      error := b.openError.getD u.error},.inr .done) := by
    rw [filterOpen,hv,if_pos h.hasOpen,hret,hopenIn]
    rfl
  rw [hrun,ho]
  exact ⟨rfl,by rw [hadds,hv],hin⟩

/-- `open()` returns `PHI_OPEN_ERR`. -/
theorem run_err (h : t.Comes F f R) (hret : b.openRet = .err) :
    (t.trkFilterRun f b).2 = .err ∧ (t.trkFilterRun f b).1.conveyor = t.conveyor.addAll b.openAdds ∧
      (t.trkFilterRun f b).1.error = b.openError.getD t.error := by
  obtain ⟨u,hv,-,he,hrun⟩ := run_open (b := b) h
  have ho : u.filterOpen f b = ({
      u with
      conveyor := u.conveyor.addAll b.openAdds
      dataIn := b.openIn.getD u.dataIn
      dataOut := b.openOut
      error := b.openError.getD u.error},.inr .err) := by
    rw [filterOpen,hv,if_pos h.hasOpen,hret]
  rw [hrun,ho]
  exact ⟨rfl,by rw [hv],by rw [he]⟩

theorem Comes.loopTop (h : t.Comes F f R) : t.loopTop.Comes F f R := by
  obtain ⟨h1,h2,h3,h4,h5⟩ := h
  rw [← loopTop_conveyor t] at h1 h2 h3 h4 h5
  exact ⟨h1,h2,h3,h4,h5⟩

/-- What is in the place of the filter when it has added filters and is done -/
structure Replaced (t u : PhiTrack) (F R : List Nat) (is : List PhiFilter) : Prop where
  ifaces : u.conveyor.ifaces = t.conveyor.ifacesOf F ++ (is ++ t.conveyor.ifacesOf R)
  cur : u.conveyor.cur = F.length
  -- the others stay as they are
  pool : ∀ x ∈ F ++ R,u.conveyor.filtersPool x = t.conveyor.filtersPool x
  dataIn : u.dataIn = t.dataIn

theorem turn_done {new : List Nat} {is : List PhiFilter} (h : t.Comes F f R)
    (hr : (t.loopTop.trkFilterRun f b).2 = .done)
    (hat : (t.loopTop.trkFilterRun f b).1.conveyor.At F f (new ++ R))
    (hnames : (t.loopTop.trkFilterRun f b).1.conveyor.ifacesOf new = is) (hne : is ≠ [])
    (hold : ∀ x ∈ F ++ R,(t.loopTop.trkFilterRun f b).1.conveyor.filtersPool x = t.conveyor.filtersPool x)
    (hout : (t.loopTop.trkFilterRun f b).1.dataOut = t.dataIn) :
    (t.turn b).2 = .data ∧ t.Replaced (t.turn b).1 F R is := by
  have hnew : new ≠ [] := by
    rintro rfl
    exact hne hnames.symm
  obtain ⟨g,new',rfl⟩ := List.exists_cons_of_ne_nil hnew
  have hcur : t.loopTop.current = f := current_eq h.loopTop.at'
  have hspec := trkFilterHandleResult_spec (t.loopTop.trkFilterRun f b).2 hat
  have hturn : t.turn b = (let h := (t.loopTop.trkFilterRun f b).1.trkFilterHandleResult f .done
      let t3 := h.1.handOver h.2
      (t3.emit (t3.moveEvent h.2),h.2)) := by
    simp only [turn,hcur,hr]
  have hsplit : (t.loopTop.trkFilterRun f b).1.conveyor.ifacesOf (F ++ (g :: new' ++ R)) =
      t.conveyor.ifacesOf F ++ (is ++ t.conveyor.ifacesOf R) := by
    have hF : (t.loopTop.trkFilterRun f b).1.conveyor.ifacesOf F = t.conveyor.ifacesOf F :=
      List.map_congr_left fun x hx => congrArg Filter.iface (hold x (List.mem_append_left R hx))
    have hR : (t.loopTop.trkFilterRun f b).1.conveyor.ifacesOf R = t.conveyor.ifacesOf R :=
      List.map_congr_left fun x hx => congrArg Filter.iface (hold x (List.mem_append_right F hx))
    rw [← hF,← hR,← hnames]
    simp only [ifacesOf,List.map_append]
  rw [hr] at hspec
  rw [hturn]
  generalize (t.loopTop.trkFilterRun f b).1.trkFilterHandleResult f .done = p at hspec
  cases hspec with
  | doneFwd g' R' hRR =>
    obtain ⟨rfl,rfl⟩ : g = g' ∧ new' ++ R = R' := by simpa using hRR
    exact ⟨rfl,hsplit,rfl,hold,hout⟩
  | doneLast F' g' _ hRR => simp at hRR
  | doneFin _ hRR => simp at hRR
  | backFirst _ hr | backPrev _ hr | halt _ hr => simp at hr

/-- A filter that adds others and skips itself is replaced by them, and the first of them is called next with
the data that it would have had. -/
theorem turn_skip {is : List PhiFilter} (h : t.Comes F f R) (hadds : b.openAdds = nexts is)
    (hopenIn : b.openIn = none) (hret : b.openRet = .skip) (hroom : t.conveyor.iFpool + is.length ≤ maxFilters) (hne : is ≠ []) :
    (t.turn b).2 = .data ∧ t.Replaced (t.turn b).1 F R is.reverse := by
  obtain ⟨hr,hv,ho⟩ := run_skip h.loopTop hadds hopenIn hret
  rw [loopTop_conveyor] at hv
  rw [loopTop_dataIn] at ho
  obtain ⟨new,hat,hnames,-,hold⟩ := Conveyor.addAll_nexts h.at' hroom
  refine turn_done h hr (hv ▸ hat) (hv ▸ hnames) (by simpa using hne) ?_ ho
  intro x hx
  have hmem : x ∈ t.conveyor.filters := by
    rw [h.at'.filters]
    simp only [List.mem_append,List.mem_cons] at hx ⊢
    tauto
  rw [hv,hold x (h.ok.mem x hmem)]

/-- `open()` returns an instance, and `process()` adds filters and returns `PHI_DONE`. -/
theorem turn_process_done {is : List PhiFilter} {o : Nat} (h : t.Comes F f R) (hopen : b.openAdds = [])
    (hret : b.openRet = .obj o) (hadds : b.adds = nexts is) (hdone : b.ret = .done)
    (hout : b.dataOut = t.dataIn) (hroom : t.conveyor.iFpool + is.length ≤ maxFilters) (hne : is ≠ []) :
    (t.turn b).2 = .data ∧ t.Replaced (t.turn b).1 F R is.reverse := by
  obtain ⟨u,hu,-,-,hrun⟩ := run_open (b := b) h.loopTop
  rw [loopTop_conveyor] at hu
  have ho : (u.filterOpen f b).2 = .inl (.inst o) ∧ (u.filterOpen f b).1.conveyor =
      t.conveyor.setFilter f {t.conveyor.filtersPool f with obj := some (.inst o)} := by
    rw [filterOpen,hu,if_pos h.hasOpen,hret,hopen,Conveyor.addAll_nil]
    exact ⟨rfl,rfl⟩
  rcases hw : u.filterOpen f b with ⟨w,r⟩
  rw [hw] at ho hrun
  obtain ⟨rfl,hwv⟩ := ho
  have hp : t.loopTop.trkFilterRun f b = w.filterProcess f (.inst o) b := hrun
  have hat0 := (h.at'.setFilter f {t.conveyor.filtersPool f with obj := some (.inst o)})
  obtain ⟨new,hat,hnames,-,hold⟩ := Conveyor.addAll_nexts hat0 hroom
  have hv : (t.loopTop.trkFilterRun f b).1.conveyor = w.conveyor.addAll (nexts is) := by
    rw [hp,filterProcess,hadds]
    rfl
  rw [hwv] at hv
  refine turn_done h (by rw [hp]; exact hdone) (hv ▸ hat) (hv ▸ hnames) (by simpa using hne) ?_
    (by rw [hp]; exact hout)
  intro x hx
  have hmem : x ∈ t.conveyor.filters := by
    rw [h.at'.filters]
    simp only [List.mem_append,List.mem_cons] at hx ⊢
    tauto
  have hxf : x ≠ f := by
    rintro rfl
    have hn := h.at'.filters ▸ h.ok.nodup
    exact (List.nodup_cons.mp (List.perm_middle.nodup_iff.mp hn)).1 hx
  rw [hv,hold x (h.ok.mem x hmem),Conveyor.setFilter_pool_of_ne _ _ hxf]

/-- `open()` or `process()` fails: the loop ends with an error. -/
theorem turn_err (h : t.Comes F f R) (hr : (t.loopTop.trkFilterRun f b).2 = .err) :
    (t.turn b).2 = .err ∧ (t.turn b).1.error ≠ 0 := by
  have hcur : t.loopTop.current = f := current_eq h.loopTop.at'
  have hturn : t.turn b = (let t3 := (t.loopTop.trkFilterRun f b).1.handOver .err
      (t3.emit (t3.moveEvent .err),.err)) := by
    simp only [turn,hcur,hr,trkFilterHandleResult]
  rw [hturn]
  refine ⟨rfl,?_⟩
  simp only [handOver,emit_error]
  split
  · decide
  · assumption

end PhiTrack

namespace AutoFilter

open Detector
open FileName (chars)
open Conveyor (nexts)

/-! ## What they choose -/

/-- The systems that the lists of modules are for -/
inductive Os
  | win | bsd | apple | android | linux
deriving DecidableEq, Repr

/-- The system, the loaded modules behind `core->mod()`, and which names are directories. -/
structure Env where
  os : Os
  ffpath_slash : UInt8
  mod : String → Option PhiFilter
  isdir : Bytes → Bool

/-- What is read of the track: fields of `conf`, and the data. -/
structure Conf where
  ifile_name : Bytes
  ofile_name : Bytes
  data_type : Option Bytes
  data_in : Bytes
  seek_cdframes : Nat
  until_cdframes : Nat
deriving DecidableEq, Repr

/-- The filters that `track->filter()` is called with, or the error that is set when there is none. -/
abbrev Choice := Except (Option Nat) (List (Option PhiFilter))

def rec_mods : Os → List String
  | .win => ["wasapi.rec","direct-sound.rec"]
  | .bsd => ["oss.rec"]
  | .apple => ["coreaudio.rec"]
  | .android => ["aaudio.rec"]
  | .linux => ["pulse.rec","alsa.rec","jack.rec"]

def play_mods : Os → List String
  | .win => ["wasapi.play","direct-sound.play"]
  | .bsd => ["oss.play"]
  | .apple => ["coreaudio.play"]
  | .android => ["aaudio.play"]
  | .linux => ["pulse.play","alsa.play"]

/-- The first module of the list that is there -/
def first_mod (env : Env) (mods : List String) : Choice :=
  match mods.findSome? env.mod with
  | some f => .ok [some f]
  | none => .error none

def phi_autorec_open (env : Env) : Choice := first_mod env (rec_mods env.os)

def phi_autoplay_open (env : Env) : Choice := first_mod env (play_mods env.os)

def STDIN : Bytes := chars ['@','s','t','d','i','n']
def STDOUT : Bytes := chars ['@','s','t','d','o','u','t']
def HTTP : Bytes := chars ['h','t','t','p',':','/','/']
def HTTPS : Bytes := chars ['h','t','t','p','s',':','/','/']

def phi_autoinput_open (env : Env) (c : Conf) : Choice :=
  let fname := if c.ifile_name = STDIN then "core.stdin"
    else if HTTP <+: c.ifile_name ∨ HTTPS <+: c.ifile_name then "http.client"
    else if env.isdir c.ifile_name then "core.dir-read"
    else "core.file-read"
  .ok [env.mod fname]

def phi_auto_out_open (env : Env) (c : Conf) : Choice :=
  let fname := if (FileName.ffpath_splitname_str c.ofile_name).1 = STDOUT then "core.stdout"
    else "core.file-write"
  .ok [env.mod fname]

/-- `PHI_E_UNKIFMT` -/
def unkifmt : Nat := 3

def fdetcr_open (env : Env) (c : Conf) : Choice :=
  match fdetcr_input env.ffpath_slash c.ifile_name c.data_type c.data_in with
  | none => .error (some unkifmt)
  | some f => .ok ((if c.seek_cdframes ≠ 0 ∨ c.until_cdframes ≠ 0 then [env.mod "format.cue-hook"] else []) ++ [some f])

/-- `phi_autow_process()`: the filter for the extension of the output file -/
def phi_autow_process (env : Env) (c : Conf) : Option PhiFilter :=
  let ext := (FileName.ffpath_split3_output env.ffpath_slash c.ofile_name).2.2
  if ext = [] then none else map_sz_vptr_find mods_output ext

/-- The filters that choose while they are opened -/
inductive Auto
  | record | play | input | output | detector
deriving DecidableEq, Repr

def Auto.choice (env : Env) (c : Conf) : Auto → Choice
  | .record => phi_autorec_open env
  | .play => phi_autoplay_open env
  | .input => phi_autoinput_open env c
  | .output => phi_auto_out_open env c
  | .detector => fdetcr_open env c

/-- The calls of `track->filter()` up to the first one that fails -/
def opening (v : Conveyor) : List (Option PhiFilter) → List (Option PhiFilter × FilterPos) × OpenRet
  | [] => ([],.skip)
  | f :: fs =>
    let (v,r) := v.trackFilter f .next
    if r = 0 then ([(f,.next)],.err)
    else ((f,.next) :: (opening v fs).1,(opening v fs).2)

/-- `open()` with this choice -/
def behaviour (t : PhiTrack) (c : Choice) : Behaviour where
  openAdds := match c with
    | .ok fs => (opening t.conveyor fs).1
    | .error _ => []
  openOut := t.dataOut
  openError := match c with
    | .ok _ => none
    | .error e => e
  openRet := match c with
    | .ok fs => (opening t.conveyor fs).2
    | .error _ => .err
  adds := []
  dataIn := t.dataIn
  dataOut := t.dataOut
  setError := none
  ret := .done

/-- The calls of the filter that chooses the writer: it opens, and adds a filter when it is called. -/
def autow_behaviour (t : PhiTrack) (f : Option PhiFilter) : Behaviour where
  openAdds := []
  openOut := t.dataOut
  openError := none
  openRet := .obj 1
  adds := f.toList.map fun f => (some f,.next)
  dataIn := t.dataIn
  dataOut := if f.isSome ∧ t.conveyor.iFpool < maxFilters then t.dataIn else t.dataOut
  setError := none
  ret := if f.isSome ∧ t.conveyor.iFpool < maxFilters then .done else .err

/-- Every filter is there, and there is room for all. -/
def Available (v : Conveyor) (fs : List (Option PhiFilter)) : Prop :=
  (∀ f ∈ fs,f ≠ none) ∧ v.iFpool + fs.length ≤ maxFilters

/-! ## What becomes of the chain -/

variable {t : PhiTrack} {F R : List Nat} {f : Nat}

theorem opening_cases {v : Conveyor} (h : v.At F f R) (hb : v.iFpool ≤ maxFilters) (fs : List (Option PhiFilter)) :
    (∃ is : List PhiFilter,fs = is.map some ∧ v.iFpool + is.length ≤ maxFilters ∧ opening v fs = (nexts is,.skip)) ∨
      ¬ Available v fs ∧ (opening v fs).2 = .err := by
  induction fs generalizing v R with
  | nil => exact .inl ⟨[],rfl,hb,rfl⟩
  | cons i fs ih =>
    rcases Conveyor.trackFilter_cases v i .next F R f h.filters h.cur with ⟨-,hr,hn⟩ | ⟨j,rfl,hmax,hr,hv⟩
    · refine .inr ⟨?_,?_⟩
      · rintro ⟨hs,hl⟩
        simp only [List.length_cons] at hl
        rcases hn with hn | hn
        · exact hs i (List.mem_cons_self ..) hn
        · omega
      · simp only [opening,hr,if_true]
    · have hat : (v.trackFilter (some j) .next).1.At F f (v.iFpool :: R) := by
        rw [hv]
        exact ⟨rfl,h.cur⟩
      have hpool : (v.trackFilter (some j) .next).1.iFpool = v.iFpool + 1 := by rw [hv]
      have hne : (v.trackFilter (some j) .next).2 ≠ 0 := by omega
      rcases ih hat (by omega) with ⟨is,rfl,hl,ho⟩ | ⟨hna,ho⟩
      · refine .inl ⟨j :: is,rfl,?_,?_⟩
        · simp only [List.length_cons]
          omega
        · simp only [opening,hne,if_false,ho]
          rfl
      · refine .inr ⟨fun ha => hna ⟨fun f hf => ha.1 f (List.mem_cons_of_mem _ hf),?_⟩,?_⟩
        · have hl := ha.2
          simp only [List.length_cons] at hl
          omega
        · simp only [opening,hne,if_false,ho]

theorem choice_ne_nil (k : Auto) (env : Env) (c : Conf) : k.choice env c ≠ .ok [] := by
  cases k with
  | record | play =>
    simp only [Auto.choice,phi_autorec_open,phi_autoplay_open,first_mod]
    split <;> simp
  | input | output => simp [Auto.choice,phi_autoinput_open,phi_auto_out_open]
  | detector =>
    simp only [Auto.choice,fdetcr_open]
    split <;> simp

theorem choice_turn (h : t.Comes F f R) (ch : Choice) (hne : ch ≠ .ok []) :
    (∃ is : List PhiFilter,ch = .ok (is.map some) ∧ t.conveyor.iFpool + is.length ≤ maxFilters ∧
      (t.turn (behaviour t ch)).2 = .data ∧ t.Replaced (t.turn (behaviour t ch)).1 F R is.reverse) ∨
    (∀ fs,ch = .ok fs → ¬ Available t.conveyor fs) ∧ (t.turn (behaviour t ch)).2 = .err ∧
      (t.turn (behaviour t ch)).1.error ≠ 0 := by
  cases ch with
  | error e => exact .inr ⟨nofun,PhiTrack.turn_err h (PhiTrack.run_err h.loopTop rfl).1⟩
  | ok fs =>
    rcases opening_cases h.at' h.ok.bound fs with ⟨is,rfl,hl,ho⟩ | ⟨hna,ho⟩
    · have hadds : (behaviour t (.ok (is.map some))).openAdds = nexts is := by simp only [behaviour,ho]
      have hret : (behaviour t (.ok (is.map some))).openRet = .skip := by simp only [behaviour,ho]
      have his : is ≠ [] := by
        rintro rfl
        exact hne rfl
      exact .inl ⟨is,rfl,hl,PhiTrack.turn_skip h hadds rfl hret hl his⟩
    · refine .inr ⟨?_,PhiTrack.turn_err h (PhiTrack.run_err h.loopTop ho).1⟩
      rintro fs' hfs
      cases hfs
      exact hna

/-- A track that comes to an automatic filter goes on with what this chose, in its place and with the data that
it had, the last filter that it added first; if it finds none, or has no room for all, the track ends with an
error. -/
theorem auto_turn (h : t.Comes F f R) (k : Auto) (env : Env) (c : Conf) :
    (∃ is : List PhiFilter,k.choice env c = .ok (is.map some) ∧ t.conveyor.iFpool + is.length ≤ maxFilters ∧
      (t.turn (behaviour t (k.choice env c))).2 = .data ∧
      t.Replaced (t.turn (behaviour t (k.choice env c))).1 F R is.reverse) ∨
    (∀ fs,k.choice env c = .ok fs → ¬ Available t.conveyor fs) ∧
      (t.turn (behaviour t (k.choice env c))).2 = .err ∧
      (t.turn (behaviour t (k.choice env c))).1.error ≠ 0 :=
  choice_turn h (k.choice env c) (choice_ne_nil k env c)

/-- The format that is found; behind an ID3 tag the data type, or else the extension of the file, tells FLAC from
MP3. -/
def detected (env : Env) (c : Conf) : FileFormat :=
  if file_format_detect c.data_in = .id3 ∧
      ieq (c.data_type.getD (FileName.ffpath_split3_str env.ffpath_slash c.ifile_name).2.2) (chars ['f','l','a','c'])
  then .flac else file_format_detect c.data_in

/-- A file whose format is found goes on with the reader of this format, and behind it with the cue hook if a part
of the file is asked for. -/
theorem detector_turn (h : t.Comes F f R) (env : Env) (c : Conf) {hook : PhiFilter}
    (hd : file_format_detect c.data_in ≠ .unk) (hm : env.mod "format.cue-hook" = some hook)
    (hroom : t.conveyor.iFpool + 2 ≤ maxFilters) :
    (t.turn (behaviour t (fdetcr_open env c))).2 = .data ∧
      t.Replaced (t.turn (behaviour t (fdetcr_open env c))).1 F R (filter (reader (detected env c)) ::
        if c.seek_cdframes ≠ 0 ∨ c.until_cdframes ≠ 0 then [hook] else []) := by
  have hi : fdetcr_input env.ffpath_slash c.ifile_name c.data_type c.data_in =
      some (filter (reader (detected env c))) := input_detected hd
  have hc : Auto.choice env c .detector = .ok (((if c.seek_cdframes ≠ 0 ∨ c.until_cdframes ≠ 0 then [hook] else [])
      ++ [filter (reader (detected env c))]).map some) := by
    simp only [Auto.choice,fdetcr_open,hi,hm]
    split <;> rfl
  rcases choice_turn h (Auto.choice env c .detector) (choice_ne_nil _ env c) with ⟨is,his,-,hret,hrep⟩ | ⟨hna,-⟩
  · rw [hc,Except.ok.injEq] at his
    obtain rfl := List.map_injective_iff.mpr (fun _ _ h => Option.some.inj h) his
    refine ⟨hret,?_⟩
    rw [List.reverse_append] at hrep
    have hrev : (if c.seek_cdframes ≠ 0 ∨ c.until_cdframes ≠ 0 then [hook] else []).reverse =
        if c.seek_cdframes ≠ 0 ∨ c.until_cdframes ≠ 0 then [hook] else [] := by split <;> rfl
    rw [hrev] at hrep
    exact hrep
  · refine absurd ⟨?_,?_⟩ (hna _ hc)
    · intro g hg
      obtain ⟨i,-,rfl⟩ := List.mem_map.mp hg
      simp
    · rw [List.length_map,List.length_append]
      split <;> simp <;> omega

/-- A track that has been started with automatic filters -/
def started : PhiTrack :=
  let t := PhiTrack.create [⟨"auto-input",true,false⟩,⟨"format-detector",true,false⟩]
  t.updConveyor {t.conveyor with cur := 0}

theorem started_comes : started.Comes [] 0 [1] :=
  ⟨⟨rfl,rfl⟩,⟨by decide,by decide,by decide⟩,rfl,rfl,rfl⟩

/-- The modules of a small player -/
def player : Env := ⟨.linux,47,fun name => if name = "jack.rec" then none else some (filter name),fun _ => false⟩

/-- A part of a FLAC file with another name -/
def part : Conf := ⟨chars ['a','.','m','p','3'],[],none,FLAC ++ [0],750,0⟩

theorem auto_turn_input : (started.turn (behaviour started (Auto.choice player part .input))).2 = .data := by
  rcases auto_turn started_comes .input player part with ⟨_,-,-,h,-⟩ | ⟨hna,-⟩
  · exact h
  · exact absurd ⟨by decide,by decide⟩ (hna [some (filter "core.file-read")] rfl)

theorem detector_turn_part :
    (started.turn (behaviour started (fdetcr_open player part))).2 = .data ∧
      started.Replaced (started.turn (behaviour started (fdetcr_open player part))).1 [] [1]
        [filter "flac-read",filter "format.cue-hook"] :=
  detector_turn started_comes player part (by decide) rfl (by decide)

theorem rsplitby_snd_subset (s : Bytes) (sep : UInt8) : (FileName.ffstr_rsplitby s sep).2 ⊆ s := by
  unfold FileName.ffstr_rsplitby
  split
  · exact (List.rtakeWhile_suffix ..).subset
  · exact List.nil_subset s

/-- The filter that chooses the writer finds the one of the table for the extension of the output file. -/
theorem writer_iff (env : Env) {c : Conf} (h0 : 0 ∉ c.ofile_name) (w : PhiFilter) :
    phi_autow_process env c = some w ↔
      ((FileName.ffpath_split3_output env.ffpath_slash c.ofile_name).2.2,w) ∈ mods_output := by
  have hext : 0 ∉ (FileName.ffpath_split3_output env.ffpath_slash c.ofile_name).2.2 :=
    fun hm => h0 ((List.rtakeWhile_suffix ..).subset (rsplitby_snd_subset _ _ hm))
  have hkeys : [] ∉ mods_output.map Prod.fst := by decide
  unfold phi_autow_process
  dsimp only
  split_ifs with hnil
  · rw [hnil]
    exact ⟨nofun,fun hm => absurd (List.mem_map_of_mem (f := Prod.fst) hm) hkeys⟩
  · exact find_iff mods_output_table hext w

/-- The writer for the extension takes the place of the filter that chose it. -/
theorem autow_turn (h : t.Comes F f R) (env : Env) {c : Conf} (h0 : 0 ∉ c.ofile_name) :
    (∃ w,((FileName.ffpath_split3_output env.ffpath_slash c.ofile_name).2.2,w) ∈ mods_output ∧
      t.conveyor.iFpool < maxFilters ∧ (t.turn (autow_behaviour t (phi_autow_process env c))).2 = .data ∧
      t.Replaced (t.turn (autow_behaviour t (phi_autow_process env c))).1 F R [w]) ∨
    ((FileName.ffpath_split3_output env.ffpath_slash c.ofile_name).2.2 ∉ mods_output.map Prod.fst ∨
        t.conveyor.iFpool = maxFilters) ∧
      (t.turn (autow_behaviour t (phi_autow_process env c))).2 = .err ∧
      (t.turn (autow_behaviour t (phi_autow_process env c))).1.error ≠ 0 := by
  have hw := writer_iff env h0
  generalize phi_autow_process env c = w at hw
  have hb := h.ok.bound
  by_cases hroom : w.isSome ∧ t.conveyor.iFpool < maxFilters
  · obtain ⟨i,rfl⟩ := Option.isSome_iff_exists.mp hroom.1
    have hturn := PhiTrack.turn_process_done (b := autow_behaviour t (some i)) h rfl rfl
      (show (autow_behaviour t (some i)).adds = nexts [i] from rfl)
      (by simp only [autow_behaviour,if_pos hroom]) (by simp only [autow_behaviour,if_pos hroom])
      (Nat.succ_le_of_lt hroom.2) (by simp)
    exact .inl ⟨i,(hw i).mp rfl,hroom.2,hturn⟩
  · refine .inr ⟨?_,PhiTrack.turn_err h ?_⟩
    · cases w with
      | none =>
        refine .inl fun hm => ?_
        obtain ⟨⟨_,i⟩,hi,rfl⟩ := List.mem_map.mp hm
        cases (hw i).mpr hi
      | some i =>
        simp only [Option.isSome_some,true_and] at hroom
        exact .inr (by omega)
    · obtain ⟨u,hu,-,-,hrun⟩ := PhiTrack.run_open (b := autow_behaviour t w) h.loopTop
      rw [hrun,PhiTrack.filterOpen,hu,if_pos h.loopTop.hasOpen]
      simp only [autow_behaviour,PhiTrack.filterProcess,if_neg hroom]

/-- A track that has been started with the automatic writer -/
def writing : PhiTrack :=
  let t := PhiTrack.create [⟨"auto-write",true,false⟩,⟨"core.auto-output",true,false⟩]
  t.updConveyor {t.conveyor with cur := 0}

/-- "d/a.opus" -/
def encoded : Conf := {part with ofile_name := chars ['d','/','a','.','o','p','u','s']}

theorem autow_turn_opus :
    (writing.turn (autow_behaviour writing (phi_autow_process player encoded))).2 = .data ∧
      writing.Replaced (writing.turn (autow_behaviour writing (phi_autow_process player encoded))).1 [] [1]
        [filter "ogg-write"] := by
  have hcomes : writing.Comes [] 0 [1] := ⟨⟨rfl,rfl⟩,⟨by decide,by decide,by decide⟩,rfl,rfl,rfl⟩
  rcases autow_turn hcomes player (c := encoded) (by decide) with ⟨w,hw,-,h⟩ | ⟨hne,-⟩
  · obtain rfl : w = filter "ogg-write" := by
      have hfind := (writer_iff player (c := encoded) (by decide) w).mpr hw
      exact (Option.some.inj (hfind.symm.trans (by decide +kernel)))
    exact h
  · exact absurd hne (by decide +kernel)

end AutoFilter

end Phiola
