import Phiola.Framework.Fuel
import Phiola.Framework.Machine

/-!
# Standard output

The filter gathers the chunks in one buffer and can't seek. A format writer asks for an offset in
`t->output.seek`, which is 0 from the beginning: the filter takes 0 for no request, so a header that is to be
written again is added at the end.
-/

namespace Phiola.Stdout

abbrev Bytes := List UInt8

/-- What `ffstr_gather()` leaves in the buffer, what it returns, and the output. -/
structure Gathered where
  buf : Bytes
  r : Nat
  dst : Bytes

/-- `ffstr_gather()` for the size of the buffer, and what `fffile_write()` returns after what was written
before. -/
structure Ext where
  ffstr_gather : Bytes → Bytes → Gathered
  fffile_write : List Bytes → Bytes → Nat

/-- `ffstr_gather()` fills the buffer up to `size`; a whole block goes past an empty buffer. -/
structure Gathers (size : Nat) (gather : Bytes → Bytes → Gathered) : Prop where
  whole : ∀ data, size ≤ data.length → gather [] data = ⟨[],size,data.take size⟩
  fill : ∀ buf data, buf ≠ [] → buf.length < size → size ≤ buf.length + data.length →
    gather buf data = ⟨buf ++ data.take (size - buf.length),size - buf.length,
      buf ++ data.take (size - buf.length)⟩
  part : ∀ buf data, buf.length + data.length < size → gather buf data = ⟨buf ++ data,data.length,[]⟩

inductive Ret
  | ok
  | done
  | err
  deriving DecidableEq

/-- `struct std_out`, with what the descriptor got. -/
structure State where
  buf : Bytes
  fsize : Nat
  written : List Bytes

def cap : Nat := 64 * 1024

def stdout_open : State := ⟨[],0,[]⟩

/-- `stdout_writedata()`; none for -1. -/
def stdout_writedata (x : Ext) (f : State) (data : Bytes) : Option State :=
  let r := x.fffile_write f.written data
  if r ≠ data.length then none
  else some { f with fsize := f.fsize + r,written := f.written ++ [data] }

/-- A round of the loop with `t->data_in`; `first` is `PHI_FFIRST`. -/
def round (x : Ext) (first : Bool) : State × Bytes → (State × Bytes) ⊕ (Ret × State)
  | (f,data_in) =>
    let ret := if first then Ret.done else Ret.ok
    let g := x.ffstr_gather f.buf data_in
    let data_in := data_in.drop g.r
    if g.dst = [] ∧ (first = false ∨ g.buf = []) then .inr (ret,{ f with buf := g.buf })
    else
      let dst := if g.dst = [] then g.buf else g.dst
      match stdout_writedata x { f with buf := [] } dst with
      | none => .inr (.err,{ f with buf := [] })
      | some f => if data_in = [] then .inr (ret,f) else .inl (f,data_in)

/-- `stdout_write()` with `t->output.seek`, none for `~0ULL`, and at most so many rounds. -/
def stdout_write (x : Ext) (first : Bool) (seek : Option Nat) (f : State) (data_in : Bytes)
    (rounds : Nat) : Option (Ret × State) :=
  if ¬ (seek = none ∨ seek = some 0) then
    if f.buf ≠ [] then
      match stdout_writedata x f f.buf with
      | none => some (.err,f)
      | some f => some (.err,{ f with buf := [] })
    else some (.err,f)
  else Fuel.loop (round x first) rounds (f,data_in)

/-! ## The calls -/

/-- A call: whether the filter is the first one by now, the offset that is asked for, and the chunk. -/
structure Call where
  first : Bool
  seek : Option Nat
  chunk : Bytes

/-- The track between two calls: `t->output.seek`, the bytes of the chunks, and what the last call
returned. -/
structure Track where
  f : State
  seek : Option Nat
  given : Bytes
  ret : Ret

def start : Track := ⟨stdout_open,some 0,[],.ok⟩

/-- The filter is not called again after `PHI_DONE` or an error. A call needs no more rounds than it has
bytes, and one. -/
def step (x : Ext) (s : Track) (c : Call) : Option Track :=
  if s.ret = .ok then
    let seek := c.seek <|> s.seek
    (stdout_write x c.first seek s.f c.chunk (c.chunk.length + 1)).map fun r =>
      ⟨r.2,seek,s.given ++ c.chunk,r.1⟩
  else none

/-- The bytes that are written are the bytes of the chunks, all of them at the end; when the chunk is meant
for another offset than the end, the call fails and the chunk is not written. -/
def Right (x : Ext) (s : Track) (c : Call) : Prop :=
  s.ret = .ok → ∃ t, step x s c = some t ∧ t.f.written.flatten <+: t.given ∧
    (t.ret = .done → t.f.written.flatten = t.given) ∧
    (∀ S, c.seek = some S → S ≠ s.given.length → t.ret = .err ∧ t.f.written.flatten <+: s.given)

/-- Offset 0 is asked for at the end only. -/
def AtEnd (s : Track) (c : Call) : Prop := s.ret = .ok → c.seek = some 0 → s.given = []

/-- What is not written is in the buffer. -/
structure Inv (s : Track) : Prop where
  given : s.given = s.f.written.flatten ++ s.f.buf
  room : s.f.buf.length < cap
  seek : s.seek = some 0

variable {x : Ext} {s t : Track} {c : Call} {f : State} {data : Bytes} {first : Bool}

theorem cap_pos : 0 < cap := by decide

theorem writedata_some (hw : ∀ o b, x.fffile_write o b = b.length) (f : State) (data : Bytes) :
    stdout_writedata x f data =
      some { f with fsize := f.fsize + data.length,written := f.written ++ [data] } := by
  simp [stdout_writedata,hw]

/-- What the loop leaves: all bytes are written or in the buffer, and at the end the buffer is empty. -/
structure Left (first : Bool) (bytes : Bytes) (r : Ret × State) : Prop where
  ret : r.1 = if first then .done else .ok
  bytes : r.2.written.flatten ++ r.2.buf = bytes
  room : r.2.buf.length < cap
  flushed : first = true → r.2.buf = []

theorem round_cases (hg : Gathers cap x.ffstr_gather) (hw : ∀ o b, x.fffile_write o b = b.length)
    (first : Bool) (data : Bytes) (hroom : f.buf.length < cap) :
    (∃ r, round x first (f,data) = .inr r ∧ Left first (f.written.flatten ++ f.buf ++ data) r) ∨
      ∃ f' data', round x first (f,data) = .inl (f',data') ∧ data'.length < data.length ∧
        f'.written.flatten ++ f'.buf ++ data' = f.written.flatten ++ f.buf ++ data ∧
        f'.buf.length < cap := by
  have hcap := cap_pos
  by_cases hpart : f.buf.length + data.length < cap
  · left
    have hgat := hg.part f.buf data hpart
    have hlen : (f.buf ++ data).length < cap := by simpa using hpart
    by_cases hend : first = false ∨ f.buf ++ data = []
    · refine ⟨(if first then .done else .ok,⟨f.buf ++ data,f.fsize,f.written⟩),?_,rfl,by simp,hlen,?_⟩
      · simp only [round,hgat,true_and,if_pos hend]
      · rintro rfl
        simpa using hend
    · refine ⟨(if first then .done else .ok,⟨[],f.fsize + (f.buf ++ data).length,f.written ++ [f.buf ++ data]⟩),
        ?_,rfl,by simp,hcap,fun _ => rfl⟩
      simp only [round,hgat,true_and,if_neg hend,writedata_some hw,List.drop_length,if_true]
  · -- a block of the whole size is gathered
    obtain ⟨n,dst,buf,hgat,hn,hne,hbytes,hpos⟩ : ∃ n dst buf,
        x.ffstr_gather f.buf data = ⟨buf,n,dst⟩ ∧ n ≤ data.length ∧ dst ≠ [] ∧
        dst ++ data.drop n = f.buf ++ data ∧ 0 < n := by
      by_cases hb : f.buf = []
      · rw [hb,List.length_nil,Nat.zero_add] at hpart
        refine ⟨cap,data.take cap,[],hb ▸ hg.whole data (by omega),by omega,?_,by simp [hb],hcap⟩
        intro h
        have := congrArg List.length h
        simp only [List.length_take,List.length_nil] at this
        omega
      · refine ⟨cap - f.buf.length,_,_,hg.fill f.buf data hb hroom (by omega),by omega,by simp [hb],?_,by omega⟩
        rw [List.append_assoc,List.take_append_drop]
    have hlen : (data.drop n).length < data.length := by
      rw [List.length_drop]
      omega
    by_cases hend : data.drop n = []
    · left
      refine ⟨(if first then .done else .ok,⟨[],f.fsize + dst.length,f.written ++ [dst]⟩),?_,rfl,?_,hcap,fun _ => rfl⟩
      · simp only [round,hgat,hne,false_and,if_false,writedata_some hw,if_pos hend]
      · rw [hend,List.append_nil] at hbytes
        simp [hbytes]
    · right
      refine ⟨⟨[],f.fsize + dst.length,f.written ++ [dst]⟩,data.drop n,?_,hlen,?_,hcap⟩
      · simp only [round,hgat,hne,false_and,if_false,writedata_some hw,if_neg hend]
      · simp [hbytes]

theorem loop_left (hg : Gathers cap x.ffstr_gather) (hw : ∀ o b, x.fffile_write o b = b.length)
    (first : Bool) (data : Bytes) (n : Nat) (hn : data.length < n) (hroom : f.buf.length < cap) :
    ∃ r, Fuel.loop (round x first) n (f,data) = some r ∧
      Left first (f.written.flatten ++ f.buf ++ data) r := by
  induction n generalizing f data with
  | zero => omega
  | succ n ih =>
    rcases round_cases hg hw first data hroom with ⟨r,hr,hl⟩ | ⟨f',data',hr,hlt,hb,hroom'⟩
    · exact ⟨r,Fuel.loop_ends hr,hl⟩
    · obtain ⟨r,hloop,hl⟩ := ih data' (by omega) hroom'
      exact ⟨r,(Fuel.loop_goes hr).trans hloop,hb ▸ hl⟩

theorem inv_start : Inv start := ⟨rfl,cap_pos,rfl⟩

theorem Inv.write (hg : Gathers cap x.ffstr_gather) (hw : ∀ o b, x.fffile_write o b = b.length)
    (h : Inv s) (hs : s.ret = .ok) (hc : c.seek = none ∨ c.seek = some 0) :
    ∃ t, step x s c = some t ∧ Inv t ∧ t.given = s.given ++ c.chunk ∧ t.f.written.flatten <+: t.given ∧
      t.ret ≠ .err ∧ (t.ret = .done → t.f.written.flatten = t.given) := by
  have hseek : (c.seek <|> s.seek) = some 0 := by
    rcases hc with hc | hc <;> simp [hc,h.seek]
  obtain ⟨⟨ret,f⟩,hr,hret,hb,hroom,hfl⟩ := loop_left hg hw c.first c.chunk (c.chunk.length + 1)
    (Nat.lt_succ_self _) h.room
  rw [← h.given] at hb
  dsimp only at hret hb hroom hfl
  refine ⟨⟨f,some 0,s.given ++ c.chunk,ret⟩,?_,⟨hb.symm,hroom,rfl⟩,rfl,?_,?_,?_⟩
  · simp [step,hs,hseek,stdout_write,hr]
  · exact hb ▸ List.prefix_append ..
  · rw [hret]
    split <;> exact fun h => by cases h
  · intro hd
    cases hf : c.first with
    | false => simp [hret,hf] at hd
    | true =>
      dsimp only
      rw [← hb,hfl hf,List.append_nil]

theorem Inv.refuse (hw : ∀ o b, x.fffile_write o b = b.length) (h : Inv s) (hs : s.ret = .ok) {S : Nat}
    (hc : c.seek = some S) (hS : S ≠ 0) :
    ∃ t, step x s c = some t ∧ t.given = s.given ++ c.chunk ∧ t.ret = .err ∧
      t.f.written.flatten = s.given := by
  have hseek : (c.seek <|> s.seek) = some S := by simp [hc]
  have hno : ¬ (some S = none ∨ some S = some 0) := by simp [hS]
  simp only [step,hs,hseek,stdout_write,if_pos hno,if_true]
  by_cases hb : s.f.buf = []
  · refine ⟨⟨s.f,some S,s.given ++ c.chunk,.err⟩,by simp [hb],rfl,rfl,?_⟩
    rw [h.given,hb,List.append_nil]
  · refine ⟨⟨⟨[],s.f.fsize + s.f.buf.length,s.f.written ++ [s.f.buf]⟩,some S,s.given ++ c.chunk,.err⟩,?_,rfl,
      rfl,?_⟩
    · rw [if_pos hb,writedata_some hw]
      rfl
    · simp [h.given]

/-- One call is right when offset 0 is asked for at the end only, and otherwise it is not. -/
theorem Inv.right_iff (hg : Gathers cap x.ffstr_gather) (hw : ∀ o b, x.fffile_write o b = b.length)
    (h : s.ret = .ok → Inv s) : Right x s c ↔ AtEnd s c := by
  by_cases hs : s.ret = .ok
  · have hi := h hs
    by_cases hc : c.seek = none ∨ c.seek = some 0
    · obtain ⟨t,ht,-,hgiven,hpre,hne,hdone⟩ := hi.write hg hw hs hc
      constructor
      · intro hr _ h0
        obtain ⟨t',ht',-,-,hS⟩ := hr hs
        obtain rfl : t = t' := Option.some.inj (ht.symm.trans ht')
        by_contra hgv
        have hlen : 0 ≠ s.given.length := by
          intro hz
          exact hgv (List.length_eq_zero_iff.mp hz.symm)
        exact hne (hS 0 h0 hlen).1
      · intro hend _
        refine ⟨t,ht,hpre,hdone,fun S hS hne' => ?_⟩
        obtain rfl : S = 0 := by
          rcases hc with hc | hc <;> rw [hc] at hS <;> cases hS
          rfl
        exact absurd (by rw [hend hs hS,List.length_nil]) hne'
    · obtain ⟨S,hS⟩ : ∃ S, c.seek = some S := by
        cases hq : c.seek with
        | none => exact absurd (.inl hq) hc
        | some S => exact ⟨S,rfl⟩
      have hS0 : S ≠ 0 := fun h0 => hc (.inr (h0 ▸ hS))
      obtain ⟨t,ht,hgiven,hret,hwr⟩ := hi.refuse hw hs hS hS0
      constructor
      · intro _ _ h0
        exact absurd (Option.some.inj (hS.symm.trans h0)) hS0
      · intro _ _
        refine ⟨t,ht,?_,?_,fun _ _ _ => ⟨hret,hwr ▸ List.prefix_rfl⟩⟩
        · rw [hwr,hgiven]
          exact List.prefix_append ..
        · intro hd
          rw [hret] at hd
          cases hd
  · exact ⟨fun _ h' => absurd h' hs,fun _ h' => absurd h' hs⟩

theorem inv_step (hg : Gathers cap x.ffstr_gather) (hw : ∀ o b, x.fffile_write o b = b.length)
    (h : s.ret = .ok → Inv s) (hstep : step x s c = some t) : t.ret = .ok → Inv t := by
  intro ht
  by_cases hs : s.ret = .ok
  · by_cases hc : c.seek = none ∨ c.seek = some 0
    · obtain ⟨u,hu,hinv,-⟩ := (h hs).write hg hw hs hc
      obtain rfl : t = u := Option.some.inj (hstep.symm.trans hu)
      exact hinv
    · obtain ⟨S,hS⟩ : ∃ S, c.seek = some S := by
        cases hq : c.seek with
        | none => exact absurd (.inl hq) hc
        | some S => exact ⟨S,rfl⟩
      have hS0 : S ≠ 0 := fun h0 => hc (.inr (h0 ▸ hS))
      obtain ⟨u,hu,-,hret,-⟩ := (h hs).refuse hw hs hS hS0
      obtain rfl : t = u := Option.some.inj (hstep.symm.trans hu)
      rw [hret] at ht
      cases ht
  · simp [step,hs] at hstep

/-- Every call of a run is right if and only if offset 0 is asked for at the end only, which is before the
first byte. -/
theorem stream_or_error_iff (x : Ext) (hg : Gathers cap x.ffstr_gather)
    (hw : ∀ o b, x.fffile_write o b = b.length) (cs : List Call) :
    Machine.AllSteps (step x) (Right x) start cs ↔
      Machine.AllSteps (step x) (fun s c => AtEnd s c) start cs := by
  constructor
  · intro h
    exact h.of_invariant (I := fun s => s.ret = .ok → Inv s) (fun s c t hi _ hst => inv_step hg hw hi hst)
      (fun s c hi hr => (Inv.right_iff hg hw hi).mp hr) fun _ => inv_start
  · intro h
    exact h.of_invariant (I := fun s => s.ret = .ok → Inv s) (fun s c t hi _ hst => inv_step hg hw hi hst)
      (fun s c hi hr => (Inv.right_iff hg hw hi).mpr hr) fun _ => inv_start

/-- What `ffstr_gather()` does. -/
def gather (size : Nat) (buf data : Bytes) : Gathered :=
  if buf = [] ∧ size ≤ data.length then ⟨[],size,data.take size⟩
  else
    let n := min data.length (size - buf.length)
    let buf := buf ++ data.take n
    ⟨buf,n,if buf.length = size then buf else []⟩

theorem gathers_gather (size : Nat) : Gathers size (gather size) := by
  refine ⟨fun data h => by simp [gather,h],fun buf data hb hlt hle => ?_,fun buf data hlt => ?_⟩
  · have hmin : min data.length (size - buf.length) = size - buf.length := by omega
    have hlen : buf.length + (size - buf.length) = size := by omega
    simp [gather,hb,hmin,List.length_take]
    omega
  · have hmin : min data.length (size - buf.length) = data.length := by omega
    have hno : ¬ (buf = [] ∧ size ≤ data.length) := by
      rintro ⟨rfl,h⟩
      simp only [List.length_nil] at hlt
      omega
    have hne : buf.length + data.length ≠ size := by omega
    simp [gather,hno,hmin,hne]

/-- Everything is written. -/
def ext : Ext := ⟨gather cap,fun _ b => b.length⟩

/-- A header is asked for at offset 0 after three bytes. -/
def header_again : List Call := [⟨false,none,[1,2,3]⟩,⟨true,some 0,[9]⟩]

theorem stream_or_error_twice :
    Machine.AllSteps (step ext) (Right ext) start [⟨false,some 0,[1,2,3]⟩,⟨true,none,[4]⟩] ↔
      Machine.AllSteps (step ext) (fun s c => AtEnd s c) start [⟨false,some 0,[1,2,3]⟩,⟨true,none,[4]⟩] :=
  stream_or_error_iff ext (gathers_gather cap) (fun _ _ => rfl) _

/-- The filter says that it is done, and the header is at the end. -/
theorem header_appended :
    ∃ t, Machine.run (step ext) start header_again = some t ∧ t.ret = .done ∧
      t.f.written.flatten = [1,2,3,9] ∧ ¬ Machine.AllSteps (step ext) (Right ext) start header_again := by
  refine ⟨_,rfl,rfl,rfl,?_⟩
  rintro ⟨-,h⟩
  obtain ⟨t,ht,-,-,hS⟩ := (h _ rfl).1 rfl
  obtain rfl := Option.some.inj ht
  exact absurd (hS 0 rfl (by decide)).1 (by decide)

end Phiola.Stdout
