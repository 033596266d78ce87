import Phiola.Track.Conveyor

/-!
# Packets into Ogg pages

`ogg_w_encode()` with one packet of look-ahead, not in the mode that copies pages. `oggwrite_process()` is a
parameter.
-/

namespace Phiola.OggWrite

inductive Flags
  | zero
  | OGGWRITE_FFLUSH
  | OGGWRITE_FLAST
deriving DecidableEq

/-- What `oggwrite_process()` returns; with `OGGWRITE_DATA` it has taken the packet or left it untouched. -/
inductive OggR
  | more
  | data (taken : Bool)
  | done
deriving DecidableEq

/-- `oggwrite_process()` as it is documented: a packet is left untouched only to output the page on which
earlier packets wait. No packet is `[]`. -/
structure Writer (W : Type) where
  process : W → List UInt8 → Nat → Flags → W × OggR
  waiting : W → Bool
  untouched : ∀ w p e f, p ≠ [] → (process w p e f).2 = .data false →
    waiting w ∧ waiting (process w p e f).1 = false
  idle : ∀ w e f b, f ≠ .OGGWRITE_FLAST → (process w [] e f).2 = .data b →
    waiting w ∧ waiting (process w [] e f).1 = false
  waits : ∀ w e f, waiting (process w [] e f).1 → waiting w
  done : ∀ w p e f, (process w p e f).2 = .done → p = [] ∧ f = .OGGWRITE_FLAST

/-- A call of `oggwrite_process()`, and whether it took the packet. -/
structure Given where
  pkt : List UInt8
  endpos : Nat
  flags : Flags
  taken : Bool
deriving DecidableEq

inductive State
  | I_CONF
  | I_PKT
  | I_OPUS_TAGS
deriving DecidableEq

/-- `struct ogg_w`; `npkts` is `og.stat.npkts`, the packets that were taken. -/
structure Ogg (W : Type) where
  og : W
  npkts : Nat
  pkt : List UInt8
  inp : List UInt8
  state : State

/-- `conf` and `oaudio.ogg_gen_opus_tag` of the track, and `audio.total`. -/
structure Conf where
  ogg_gen_opus_tag : Bool
  total : Option Nat

/-- A packet with its start position. -/
structure Region where
  data : List UInt8
  pos : Nat
deriving DecidableEq

/-- What `ogg_w_encode()` sees: `PHI_FFWD`, `PHI_FFIRST`, `data_in` and `audio.pos`. -/
structure Call where
  fwd : Bool
  first : Bool
  region : Region

variable {W : Type}

/-- What is left of a packet. -/
def rest (pkt : List UInt8) : OggR → List UInt8
  | .more | .data true => []
  | .data false | .done => pkt

def ret : OggR → PhiR
  | .more => .more
  | .data _ => .data
  | .done => .lastout

/-- `pkt_write()`: the writer and the number of packets, what is left of the packet, and the call. -/
def pkt_write (x : Writer W) (og : W) (npkts : Nat) (pkt : List UInt8) (endpos : Nat) (flags : Flags) :
    W × Nat × List UInt8 × PhiR × Given :=
  let (og,r) := x.process og pkt endpos flags
  let left := rest pkt r
  (og,if left = pkt then npkts else npkts + 1,left,ret r,⟨pkt,endpos,flags,left ≠ pkt⟩)

/-- `opus_tags` -/
def opus_tags : List UInt8 :=
  ['O','p','u','s','T','a','g','s','\x08','\x00','\x00','\x00','d','a','t','a','c','o','p','y',
    '\x00','\x00','\x00','\x00'].map Char.toUInt8

/-- `case I_PKT` -/
def i_pkt (x : Writer W) (t : Conf) (o : Ogg W) (c : Call) : Ogg W × PhiR × List Given :=
  let endpos := if o.npkts = 0 then 0 else c.region.pos
  let state := if o.npkts = 0 ∧ t.ogg_gen_opus_tag then .I_OPUS_TAGS else o.state
  let flags := if c.first ∧ o.inp = [] then .OGGWRITE_FLAST
    else if endpos = 0 then .OGGWRITE_FFLUSH else .zero
  let (og,npkts,pkt,r,g) := pkt_write x o.og o.npkts o.pkt endpos flags
  let o : Ogg W := ⟨og,npkts,pkt,o.inp,state⟩
  if r = .more then
    if c.first then
      let endpos := match t.total with
        | some total => if endpos < total then total else endpos + 1
        | none => endpos + 1
      let (og,npkts,inp,r,g') := pkt_write x o.og o.npkts o.inp endpos .OGGWRITE_FLAST
      (⟨og,npkts,o.pkt,inp,o.state⟩,r,[g,g'])
    else ({o with pkt := o.inp},.more,[g])
  else (o,r,[g])

/-- `ogg_w_encode()` -/
def ogg_w_encode (x : Writer W) (t : Conf) (o : Ogg W) (c : Call) : Ogg W × PhiR × List Given :=
  let o := if c.fwd then {o with inp := c.region.data} else o
  match o.state with
  | .I_CONF =>
    let o := {o with state := .I_PKT}
    if c.first then i_pkt x t o c else ({o with pkt := o.inp},.more,[])
  | .I_PKT => i_pkt x t o c
  | .I_OPUS_TAGS =>
    let (og,npkts,_,r,g) := pkt_write x o.og o.npkts opus_tags 0 .OGGWRITE_FFLUSH
    (⟨og,npkts,o.pkt,o.inp,.I_PKT⟩,r,[g])

/-- The calls for a region, at most so many: after `PHI_DATA` it is called again. -/
def feed (x : Writer W) (t : Conf) : Nat → Ogg W → Call → Ogg W × PhiR × List Given
  | 0,o,_ => (o,.data,[])
  | n + 1,o,c =>
    match ogg_w_encode x t o c with
    | (o,.data,gs) =>
      let (o,r,gs') := feed x t n o {c with fwd := false}
      (o,r,gs ++ gs')
    | y => y

/-- The calls for regions, of which the last arrives with `PHI_FFIRST`. -/
def run (x : Writer W) (t : Conf) (n : Nat) : Ogg W → List Region → List Given
  | _,[] => []
  | o,d :: ds =>
    let (o,r,gs) := feed x t n o ⟨true,ds.isEmpty,d⟩
    if r = .more then gs ++ run x t n o ds else gs

/-- The packets that were taken, with their end positions. -/
def taken (gs : List Given) : List (List UInt8 × Nat) :=
  gs.filterMap fun g => if g.taken then some (g.pkt,g.endpos) else none

/-- Packets with the start positions of those that follow, but for the last one. -/
def follow : List Region → List (List UInt8 × Nat)
  | a :: b :: ds => (a.data,b.pos) :: follow (b :: ds)
  | _ => []

/-- The generated packet. -/
def tags (t : Conf) : List (List UInt8 × Nat) := if t.ogg_gen_opus_tag then [(opus_tags,0)] else []

/-- What is written before the last packet. -/
def before (t : Conf) : List Region → List (List UInt8 × Nat)
  | a :: b :: ds => (a.data,0) :: tags t ++ follow (b :: ds)
  | _ => []

variable {x : Writer W} {t : Conf} {o : Ogg W} {og : W} {npkts endpos n : Nat} {pkt q : List UInt8}
  {flags : Flags} {gs gs' : List Given} {region : Region} {fwd first : Bool}

@[simp] theorem taken_nil : taken [] = [] := rfl

theorem taken_append : taken (gs ++ gs') = taken gs ++ taken gs' := List.filterMap_append

/-- The packet, if there is one. -/
def one (pkt : List UInt8) (endpos : Nat) : List (List UInt8 × Nat) := if pkt = [] then [] else [(pkt,endpos)]

/-! ## A call of the writer -/

/-- What is left to do before the input is stored. -/
def left (x : Writer W) (o : Ogg W) : Nat := (if o.pkt = [] then 0 else 2) + if x.waiting o.og then 1 else 0

/-- The flag for a packet in the middle. -/
def flag (endpos : Nat) : Flags := if endpos = 0 then .OGGWRITE_FFLUSH else .zero

/-- How the calls for the last region go on: the last packet is given, and taken once. -/
def Last (last : List UInt8) (taken_before : List (List UInt8 × Nat)) (gs : List Given) : Prop :=
  ∃ gs1 g gs2 e, gs = gs1 ++ g :: gs2 ∧ (∀ y ∈ gs1, y.flags ≠ .OGGWRITE_FLAST) ∧ taken gs1 = taken_before ∧
    g.pkt = last ∧ g.flags = .OGGWRITE_FLAST ∧ taken (g :: gs2) = [(last,e)]

theorem Last.append {last : List UInt8} {xs : List (List UInt8 × Nat)} (h : Last last xs gs)
    (hflags : ∀ y ∈ gs', y.flags ≠ .OGGWRITE_FLAST) : Last last (taken gs' ++ xs) (gs' ++ gs) := by
  obtain ⟨gs1,g,gs2,e,rfl,hgs1,hxs,hg,hset,hlast⟩ := h
  refine ⟨gs' ++ gs1,g,gs2,e,(List.append_assoc ..).symm,List.forall_mem_append.mpr ⟨hflags,hgs1⟩,?_,hg,hset,
    hlast⟩
  rw [taken_append,hxs]

theorem left_lt (x : Writer W) (o : Ogg W) : left x o < 4 := by
  rw [left]
  split <;> split <;> omega

end Phiola.OggWrite
