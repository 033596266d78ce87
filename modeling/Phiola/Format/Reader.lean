import Mathlib.Logic.Relation
import Phiola.File.Read
import Phiola.Framework.Fuel

/-!
# Reading a file for a parser

A reader asks the filter before it for data, perhaps from another offset, and gives its parser what comes.
The parsers are not part of the program; they take bytes from the front of what they are given.
-/

namespace Phiola.Reader

open Fuel

variable {σ ρ : Type}

/-! ## The readers -/

/-- What a reader uses of its parser. `process` says how many bytes were taken. -/
structure Parser (σ ρ : Type) where
  seek : Nat → σ → σ
  process : σ → Bytes → σ × Nat × ρ

/-- `struct flac_r` and `struct mp3_r`: the parser, `in` and `sample_rate`. What `in` points to are blocks of the
file reader, which are as they were until that is called again. -/
structure R (σ : Type) where
  st : σ
  input : Bytes
  sample_rate : Nat

/-- What a reader sees of the track: `PHI_FFWD`, `PHI_FFIRST` and `data_in` -/
structure Io where
  fwd : Bool
  first : Bool
  data_in : Bytes

/-- The settings, and whether the decoder could be added. -/
structure Conf where
  info_only : Bool
  stream_copy : Bool
  decoder : Bool

/-- What a case of the `switch` does: the loop goes on, perhaps with a sample rate, or the call returns, with data,
or after it has set `input.seek`. -/
inductive Case
  | go (rate : Option Nat)
  | seek (off : Nat)
  | data (out : Bytes)
  | ret (r : PhiR)

inductive FlacRes
  | more
  | header (rate : Nat)
  | tag
  | header_fin
  | data (out : Bytes)
  | seek (off : Nat)
  | done
  | error

inductive Mp3Res
  | data (out : Bytes)
  | more
  | done
  | header (rate : Nat)
  | tag
  | seek (off : Nat)
  | warn
  | error

/-- A reader: its parser, what it does before its loop, and the cases of its `switch` -/
structure Kind (σ ρ : Type) where
  parser : Parser σ ρ
  begin : R σ → Io → R σ
  case : Bool → ρ → Case

/-- `flac_in_read()` -/
def flac_read (p : Parser σ FlacRes) (finish : σ → σ) (c : Conf) : Kind σ FlacRes where
  parser := p
  begin f t :=
    if t.fwd then ⟨if t.first then finish f.st else f.st,t.data_in,f.sample_rate⟩ else f
  case first
    | .more => .ret (if first then .done else .more)
    | .header rate => .go (some rate)
    | .tag => .go none
    | .header_fin => if c.info_only then .ret .lastout else if c.decoder then .go none else .ret .err
    | .data out => .data out
    | .seek off => .seek off
    | .done => .ret .done
    | .error => .ret .err

/-- `mp3_process()`: unlike the other reader it looks at the length of what came. -/
def mp3_read (p : Parser σ Mp3Res) (c : Conf) : Kind σ Mp3Res where
  parser := p
  begin m t := if t.data_in ≠ [] then {m with input := t.data_in} else m
  case first
    | .data out => .data out
    | .more => .ret (if first then .done else .more)
    | .done => .ret .lastout
    | .header rate =>
      if c.info_only then .ret .lastout
      else if c.stream_copy ∨ c.decoder then .go (some rate) else .ret .err
    | .tag | .warn => .go none
    | .seek off => .seek off
    | .error => .ret .err

/-- A call of the parser: where it is in the file, what it is given, and whether no filter is left before. -/
structure Given where
  pos : Nat
  input : Bytes
  first : Bool

/-- A reader in its loop -/
structure Loop (σ : Type) where
  r : R σ
  seek_req : Option Nat
  pos : Nat
  given : List Given

/-- What a call of a reader leaves. -/
structure Out (σ : Type) where
  ret : PhiR
  data_out : Bytes
  input_seek : Option Nat
  loop : Loop σ

def msec_to_samples (ms rate : Nat) : Nat := ms * rate / 1000

/-- The check for a seek request -/
def Loop.request (p : Parser σ ρ) (l : Loop σ) : Loop σ :=
  match l.seek_req with
  | some ms =>
    if l.r.sample_rate ≠ 0 then
      {l with r := {l.r with st := p.seek (msec_to_samples ms l.r.sample_rate) l.r.st}, seek_req := none}
    else l
  | none => l

/-- A round of the loop -/
def round (k : Kind σ ρ) (first : Bool) (l : Loop σ) : Loop σ ⊕ Out σ :=
  let l := l.request k.parser
  let (st,n,res) := k.parser.process l.r.st l.r.input
  let l' : Loop σ := ⟨{l.r with st := st, input := l.r.input.drop n},l.seek_req,l.pos + n,
    l.given ++ [⟨l.pos,l.r.input,first⟩]⟩
  match k.case first res with
  | .go rate => .inl {l' with r := {l'.r with sample_rate := rate.getD l'.r.sample_rate}}
  | .seek off => .inr ⟨.more,[],some off,{l' with pos := off}⟩
  | .data out => .inr ⟨.data,out,none,l'⟩
  | .ret r => .inr ⟨r,[],none,l'⟩

/-! ## The track -/

/-- The file reader and the reader behind it -/
structure Pipe (σ : Type) where
  fr : FrRun
  out : Out σ

/-- A reader that has just been opened -/
def opened (kb : Nat) (r : R σ) : Pipe σ := ⟨FrRun.init kb,⟨.more,[],none,⟨{r with input := []},none,0,[]⟩⟩⟩

/-- A turn of the track: the reader is called with what the file reader passes on, as the first filter once
that is done, or again by a filter behind it; a seek may be requested any time. -/
inductive Turn (k : Kind σ ρ) (file : Bytes) : Pipe σ → Pipe σ → Prop
  | feed {s fr out} (req : Option Nat) (hmore : s.out.ret = .more)
      (hfr : FrRun.step file s.fr s.out.input_seek = some fr)
      (hcall : Returns (round k (fr.ret = .done))
        ⟨k.begin s.out.loop.r ⟨true,fr.ret = .done,(frProcess file s.fr.f s.out.input_seek).2.1⟩,req,
          s.out.loop.pos,s.out.loop.given⟩ out) : Turn k file s ⟨fr,out⟩
  | again {s out} (req : Option Nat) (hdata : s.out.ret = .data)
      (hcall : Returns (round k (s.fr.ret = .done))
        ⟨k.begin s.out.loop.r ⟨false,s.fr.ret = .done,[]⟩,req,s.out.loop.pos,s.out.loop.given⟩ out) :
      Turn k file s ⟨s.fr,out⟩

/-- The parser takes no more than it is given, and all of it before it asks for more. -/
structure Kind.Takes (k : Kind σ ρ) : Prop where
  within : ∀ st input,(k.parser.process st input).2.1 ≤ input.length
  all : ∀ st input first,k.case first (k.parser.process st input).2.2 = .ret .more →
    (k.parser.process st input).2.1 = input.length

/-- What came before the loop is what the file reader passed on, if that is not empty. -/
structure Kind.Begins (k : Kind σ ρ) : Prop where
  feed : ∀ r t,t.fwd = true →
    (k.begin r t).input = t.data_in ∨ t.data_in = [] ∧ (k.begin r t).input = r.input
  again : ∀ r t,t.fwd = false → t.data_in = [] → (k.begin r t).input = r.input

/-- Nothing is left of what was given before a seek: the reader drops it, or the parser has taken it, unless it
stays inside of the file. -/
def Kind.Drops (k : Kind σ ρ) (file : Bytes) : Prop :=
  (∀ r t,t.fwd = true → (k.begin r t).input = t.data_in) ∨
    ∀ st input first off,k.case first (k.parser.process st input).2.2 = .seek off →
      off < file.length ∨ (k.parser.process st input).2.1 = input.length

/-! ## What the parser is given -/

/-- The input is the file from the position on; without a filter before it is all that is left. -/
structure Given.Good (file : Bytes) (g : Given) : Prop where
  pre : g.input <+: file.drop g.pos
  all : g.first = true → file.length ≤ g.pos + g.input.length

/-- The input is the end of what the file reader has passed on. -/
def Loop.Sees (fr : FrRun) (l : Loop σ) : Prop :=
  ∃ taken,fr.got = taken ++ l.r.input ∧ l.pos = fr.start + taken.length

variable {k : Kind σ ρ} {file : Bytes} {fr : FrRun} {l : Loop σ} {s s' : Pipe σ}

theorem Loop.Sees.good (h : l.Sees fr) (hd : FrRun.Delivers file fr) :
    Given.Good file ⟨l.pos,l.r.input,fr.ret = .done⟩ := by
  obtain ⟨taken,hgot,hpos⟩ := h
  constructor
  · have hpre := hd.pre
    rw [hgot] at hpre
    obtain ⟨rest,hrest⟩ := hpre
    refine ⟨rest,?_⟩
    show l.r.input ++ rest = file.drop l.pos
    rw [hpos,← List.drop_drop,← hrest,List.append_assoc,List.drop_left]
  · intro hfirst
    have hlen := congrArg List.length (hd.all (of_decide_eq_true hfirst))
    rw [hgot,List.length_append,List.length_drop] at hlen
    show file.length ≤ l.pos + l.r.input.length
    omega

@[simp] theorem request_pos (p : Parser σ ρ) (l : Loop σ) : (l.request p).pos = l.pos := by
  unfold Loop.request
  split
  · split <;> rfl
  · rfl

@[simp] theorem request_input (p : Parser σ ρ) (l : Loop σ) : (l.request p).r.input = l.r.input := by
  unfold Loop.request
  split
  · split <;> rfl
  · rfl

@[simp] theorem request_given (p : Parser σ ρ) (l : Loop σ) : (l.request p).given = l.given := by
  unfold Loop.request
  split
  · split <;> rfl
  · rfl

/-- What a call of a reader leaves: the input for the next one, or the place for a seek. -/
structure Left (k : Kind σ ρ) (file : Bytes) (fr : FrRun) (out : Out σ) : Prop where
  given : ∀ g ∈ out.loop.given,g.Good file
  sees : out.input_seek = none → out.loop.Sees fr
  more : out.input_seek = none → out.ret = .more → out.loop.r.input = []
  pos : ∀ off,out.input_seek = some off → out.ret = .more ∧ out.loop.pos = off
  drops : ∀ off,out.input_seek = some off →
    (∀ r t,t.fwd = true → (k.begin r t).input = t.data_in) ∨ off < file.length ∨ out.loop.r.input = []

theorem round_left (hk : k.Takes) (hdrops : k.Drops file) (hd : FrRun.Delivers file fr) (hs : l.Sees fr)
    (hg : ∀ g ∈ l.given,g.Good file) :
    match round k (fr.ret = .done) l with
    | .inl l' => l'.Sees fr ∧ ∀ g ∈ l'.given,g.Good file
    | .inr out => Left k file fr out := by
  obtain ⟨m,hm⟩ : ∃ m,m = l.request k.parser := ⟨_,rfl⟩
  obtain ⟨st,n,res,hp⟩ : ∃ st n res,k.parser.process m.r.st m.r.input = (st,n,res) := ⟨_,_,_,rfl⟩
  have hin : m.r.input = l.r.input := by rw [hm,request_input]
  have hn : n ≤ m.r.input.length := by
    have hwithin := hk.within m.r.st m.r.input
    rwa [hp] at hwithin
  have hgood : ∀ g ∈ m.given ++ [⟨m.pos,m.r.input,decide (fr.ret = .done)⟩],g.Good file := by
    intro g hmem
    rcases List.mem_append.mp hmem with hmem | hmem
    · rw [hm,request_given] at hmem
      exact hg g hmem
    · rw [List.mem_singleton.mp hmem,hin,hm,request_pos]
      exact hs.good hd
  have hsees : ∃ taken,fr.got = taken ++ m.r.input.drop n ∧ m.pos + n = fr.start + taken.length := by
    obtain ⟨taken,hgot,hpos⟩ := hs
    refine ⟨taken ++ m.r.input.take n,?_,?_⟩
    · rw [List.append_assoc,List.take_append_drop,hin,hgot]
    · rw [List.length_append,List.length_take,Nat.min_eq_left hn,hm,request_pos,hpos,Nat.add_assoc]
  rw [round,← hm]
  simp only [hp]
  cases hcase : k.case (fr.ret = .done) res with
  | go rate => exact ⟨hsees,hgood⟩
  | data out => exact ⟨hgood,fun _ => hsees,nofun,nofun,nofun⟩
  | ret r =>
    refine ⟨hgood,fun _ => hsees,fun _ hr => ?_,nofun,nofun⟩
    obtain rfl : r = .more := hr
    have hall := hk.all m.r.st m.r.input (fr.ret = .done)
    rw [hp] at hall
    show m.r.input.drop n = []
    rw [show n = m.r.input.length from hall hcase,List.drop_length]
  | seek off =>
    refine ⟨hgood,nofun,nofun,fun off' h => ⟨rfl,Option.some.inj h⟩,fun off' h => ?_⟩
    obtain rfl := Option.some.inj h
    rcases hdrops with hfresh | htaken
    · exact .inl hfresh
    · have hoff := htaken m.r.st m.r.input (fr.ret = .done) off
      rw [hp] at hoff
      refine .inr ((hoff hcase).imp_right fun hall => ?_)
      show m.r.input.drop n = []
      rw [show n = m.r.input.length from hall,List.drop_length]

theorem call_left (hk : k.Takes) (hdrops : k.Drops file) (hd : FrRun.Delivers file fr) (hs : l.Sees fr)
    (hg : ∀ g ∈ l.given,g.Good file) {out : Out σ} (hcall : Returns (round k (fr.ret = .done)) l out) :
    Left k file fr out := by
  obtain ⟨n,hn⟩ := hcall
  induction n generalizing l with
  | zero => cases hn
  | succ n ih =>
    have hround := round_left hk hdrops hd hs hg
    rw [loop] at hn
    cases hr : round k (fr.ret = .done) l with
    | inl l' =>
      rw [hr] at hn hround
      exact ih hround.1 hround.2 hn
    | inr out' =>
      rw [hr] at hn hround
      obtain rfl := Option.some.inj hn
      exact hround

theorem block_ne_nil (h : fr.Reading file) {off : Nat} (hoff : off < file.length) :
    (frProcess file fr.f (some off)).2.1 ≠ [] := by
  obtain ⟨f',b,heq,-,-,hserves⟩ := frProcess_serves h.cap h.blocks (some off)
  have hcov := hserves.covers hoff
  have hle := hserves.le
  rw [Option.getD_some] at heq hcov hle
  rw [heq,frDone_out]
  intro hnil
  rw [List.drop_eq_nil_iff] at hnil
  omega

/-- After a step of the file reader the input is the end of what it has passed on. -/
theorem feed_sees (hb : k.Begins) (hr : s.fr.Reading file) (hl : Left k file s.fr s.out)
    (hmore : s.out.ret = .more) (hfr : FrRun.step file s.fr s.out.input_seek = some fr) {t : Io}
    (ht : t.fwd = true) (hin : t.data_in = (frProcess file s.fr.f s.out.input_seek).2.1) (req : Option Nat) :
    Loop.Sees fr ⟨k.begin s.out.loop.r t,req,s.out.loop.pos,s.out.loop.given⟩ := by
  unfold FrRun.step at hfr
  split at hfr
  · cases hfr
  obtain rfl := Option.some.inj hfr
  have hbegin := hb.feed s.out.loop.r t ht
  cases hseek : s.out.input_seek with
  | none =>
    rw [hseek] at hin
    obtain ⟨taken,hgot,hpos⟩ := hl.sees hseek
    have hempty := hl.more hseek hmore
    have hinput : (k.begin s.out.loop.r t).input = t.data_in := by
      rcases hbegin with h | ⟨hnil,h⟩
      · exact h
      · rw [h,hempty,hnil]
    refine ⟨s.fr.got,?_,?_⟩
    · show (if none = none then s.fr.got else []) ++ _ = _
      rw [if_pos rfl,hinput,hin]
    · rw [hempty,List.append_nil] at hgot
      rw [hgot]
      exact hpos
  | some off =>
    rw [hseek] at hin
    have hinput : (k.begin s.out.loop.r t).input = t.data_in := by
      rcases hbegin with h | ⟨hnil,h⟩
      · exact h
      · rcases hl.drops off hseek with hfresh | hoff | hempty
        · exact hfresh _ _ ht
        · exact absurd (hin.symm.trans hnil) (block_ne_nil hr hoff)
        · rw [h,hempty,hnil]
    exact ⟨[],by rw [hinput,hin]; rfl,(hl.pos off hseek).2⟩

theorem turn_left (hk : k.Takes) (hb : k.Begins) (hdrops : k.Drops file) (hr : s.fr.Reading file)
    (hl : Left k file s.fr s.out) (h : Turn k file s s') :
    s'.fr.Reading file ∧ Left k file s'.fr s'.out := by
  cases h with
  | again req hdata hcall =>
    have hseek : s.out.input_seek = none := by
      cases hs : s.out.input_seek with
      | none => rfl
      | some off => cases hdata.symm.trans (hl.pos off hs).1
    obtain ⟨taken,hgot,hpos⟩ := hl.sees hseek
    refine ⟨hr,call_left hk hdrops hr.delivers ?_ ?_ hcall⟩
    · exact ⟨taken,hgot.trans (congrArg (taken ++ ·) (hb.again _ _ rfl rfl).symm),hpos⟩
    · exact hl.given
  | feed req hmore hfr hcall =>
    have hr' := hr.step hfr
    refine ⟨hr',call_left hk hdrops hr'.delivers ?_ ?_ hcall⟩
    · exact feed_sees hb hr hl hmore hfr rfl rfl req
    · exact hl.given

/-- Whatever the parser asks for and whenever a seek is requested, it is given the file from where it is. -/
theorem run_good (hk : k.Takes) (hb : k.Begins) (hdrops : k.Drops file) {kb : Nat} {r : R σ}
    (hcap : Reaches (frOpen (rbufferSize kb)).bufCap file)
    (h : Relation.ReflTransGen (Turn k file) (opened kb r) s) : ∀ g ∈ s.out.loop.given,g.Good file := by
  have hall : s.fr.Reading file ∧ Left k file s.fr s.out := by
    induction h with
    | refl =>
      exact ⟨FrRun.reading_init hcap,nofun,fun _ => ⟨[],rfl,rfl⟩,fun _ _ => rfl,nofun,nofun⟩
    | tail _ hturn ih => exact turn_left hk hb hdrops ih.1 ih.2 hturn
  exact hall.2.given

/-! ## The two readers -/

theorem flac_begins (p : Parser σ FlacRes) (finish : σ → σ) (c : Conf) : (flac_read p finish c).Begins where
  feed r t ht := by simp [flac_read,ht]
  again r t ht _ := by simp [flac_read,ht]

theorem mp3_begins (p : Parser σ Mp3Res) (c : Conf) : (mp3_read p c).Begins where
  feed r t _ := by
    by_cases h : t.data_in = []
    · exact .inr ⟨h,by simp [mp3_read,h]⟩
    · exact .inl (by simp [mp3_read,h])
  again r t _ h := by simp [mp3_read,h]

theorem flac_more {p : Parser σ FlacRes} {finish : σ → σ} {c : Conf} {first : Bool} {res : FlacRes}
    (h : (flac_read p finish c).case first res = .ret .more) : res = .more := by
  cases res with
  | more => rfl
  | header_fin =>
    simp only [flac_read] at h
    split at h
    · cases h
    · split at h <;> cases h
  | header _ | tag | data _ | seek _ | done | error => cases h

theorem mp3_header {p : Parser σ Mp3Res} {c : Conf} {first : Bool} {rate : Nat} :
    (mp3_read p c).case first (.header rate) ≠ .ret .more ∧
      ∀ off,(mp3_read p c).case first (.header rate) ≠ .seek off := by
  simp only [mp3_read]
  split
  · exact ⟨nofun,nofun⟩
  · split <;> exact ⟨nofun,nofun⟩

theorem mp3_more {p : Parser σ Mp3Res} {c : Conf} {first : Bool} {res : Mp3Res}
    (h : (mp3_read p c).case first res = .ret .more) : res = .more := by
  cases res with
  | more => rfl
  | header _ => exact absurd h mp3_header.1
  | data _ | done | tag | seek _ | warn | error => cases h

theorem mp3_seek {p : Parser σ Mp3Res} {c : Conf} {first : Bool} {res : Mp3Res} {off : Nat}
    (h : (mp3_read p c).case first res = .seek off) : res = .seek off := by
  cases res with
  | seek off' =>
    obtain rfl := Case.seek.inj h
    rfl
  | header _ => exact absurd h (mp3_header.2 off)
  | data _ | more | done | tag | warn | error => cases h

/-- A file of four bytes -/
def magic : Bytes := [102,76,97,67]

def plain : Conf := ⟨false,false,true⟩

/-- A parser that takes a header, asks for offset 2, passes a byte on, and asks for offset 1 after a seek -/
def walking (header seek : Nat → ρ) (data : Bytes → ρ) (more : ρ) : Parser Nat ρ where
  seek sample _ := sample + 4
  process
    | 0,input => (1,min 1 input.length,header 1000)
    | 1,_ => (2,0,seek 2)
    | 2,input => (3,min 1 input.length,data (input.take 1))
    | 3,input => (3,input.length,more)
    | _ + 4,_ => (3,0,seek 1)

theorem walking_within (header seek : Nat → ρ) (data : Bytes → ρ) (more : ρ) (st : Nat) (input : Bytes) :
    ((walking header seek data more).process st input).2.1 ≤ input.length := by
  match st with
  | 0 | 2 => exact Nat.min_le_right _ _
  | 1 | _ + 4 => exact Nat.zero_le _
  | 3 => exact Nat.le_refl _

/-- What it is given when a seek is requested behind that byte -/
def walked : List Given :=
  [⟨0,magic,false⟩,⟨1,[76,97,67],false⟩,⟨2,[97,67],false⟩,⟨3,[67],false⟩,⟨1,[76,97,67],false⟩,
    ⟨4,[],false⟩,⟨4,[],true⟩]

/-- The FLAC parser is given the file from where it is at every call, and all that is left of it once no filter is
left before, whatever it asks for. -/
theorem flac_reads (p : Parser σ FlacRes) (finish : σ → σ) (c : Conf) {kb : Nat} {r : R σ}
    (hcap : Reaches (frOpen (rbufferSize kb)).bufCap file)
    (hwithin : ∀ st input,(p.process st input).2.1 ≤ input.length)
    (hmore : ∀ st input,(p.process st input).2.2 = .more → (p.process st input).2.1 = input.length)
    (h : Relation.ReflTransGen (Turn (flac_read p finish c) file) (opened kb r) s) :
    ∀ g ∈ s.out.loop.given,g.input <+: file.drop g.pos ∧
      (g.first = true → file.length ≤ g.pos + g.input.length) := by
  intro g hg
  have hgood := run_good ⟨hwithin,fun st input _ hcase => hmore st input (flac_more hcase)⟩
    (flac_begins p finish c) (.inl fun r t ht => by simp [flac_read,ht]) hcap h g hg
  exact ⟨hgood.pre,hgood.all⟩

theorem flac_reads_magic : ∃ s : Pipe Nat,
    s.out.loop.given = walked ∧ ∀ g ∈ s.out.loop.given,g.input <+: magic.drop g.pos ∧
      (g.first = true → magic.length ≤ g.pos + g.input.length) := by
  have hfirst : Turn (flac_read (walking .header .seek .data .more) id plain) magic (opened 0 ⟨0,[],0⟩) _ :=
    .feed none rfl rfl ⟨2,rfl⟩
  have hrun := (((((Relation.ReflTransGen.single hfirst).tail (.feed none rfl rfl ⟨1,rfl⟩)).tail
    (.again (some 500) rfl ⟨1,rfl⟩)).tail (.feed none rfl rfl ⟨1,rfl⟩)).tail (.feed none rfl rfl ⟨1,rfl⟩)).tail
      (.feed none rfl rfl ⟨1,rfl⟩)
  refine ⟨_,rfl,flac_reads (walking .header .seek .data .more) id plain (by decide)
    (walking_within _ _ _ _) (fun st input h => ?_) hrun⟩
  match st with
  | 0 | 1 | 2 | _ + 4 => cases h
  | 3 => rfl

/-- So is the MPEG parser, if it takes all that it was given before it asks for an offset behind the file. -/
theorem mp3_reads (p : Parser σ Mp3Res) (c : Conf) {kb : Nat} {r : R σ}
    (hcap : Reaches (frOpen (rbufferSize kb)).bufCap file)
    (hwithin : ∀ st input,(p.process st input).2.1 ≤ input.length)
    (hmore : ∀ st input,(p.process st input).2.2 = .more → (p.process st input).2.1 = input.length)
    (hseek : ∀ st input off,(p.process st input).2.2 = .seek off →
      off < file.length ∨ (p.process st input).2.1 = input.length)
    (h : Relation.ReflTransGen (Turn (mp3_read p c) file) (opened kb r) s) :
    ∀ g ∈ s.out.loop.given,g.input <+: file.drop g.pos ∧
      (g.first = true → file.length ≤ g.pos + g.input.length) := by
  intro g hg
  have hgood := run_good ⟨hwithin,fun st input _ hcase => hmore st input (mp3_more hcase)⟩ (mp3_begins p c)
    (.inr fun st input _ off hcase => hseek st input off (mp3_seek hcase)) hcap h g hg
  exact ⟨hgood.pre,hgood.all⟩

theorem mp3_reads_magic : ∃ s : Pipe Nat,
    s.out.loop.given = walked ∧ ∀ g ∈ s.out.loop.given,g.input <+: magic.drop g.pos ∧
      (g.first = true → magic.length ≤ g.pos + g.input.length) := by
  have hfirst : Turn (mp3_read (walking .header .seek .data .more) plain) magic (opened 0 ⟨0,[],0⟩) _ :=
    .feed none rfl rfl ⟨2,rfl⟩
  have hrun := (((((Relation.ReflTransGen.single hfirst).tail (.feed none rfl rfl ⟨1,rfl⟩)).tail
    (.again (some 500) rfl ⟨1,rfl⟩)).tail (.feed none rfl rfl ⟨1,rfl⟩)).tail (.feed none rfl rfl ⟨1,rfl⟩)).tail
      (.feed none rfl rfl ⟨1,rfl⟩)
  refine ⟨_,rfl,mp3_reads (walking .header .seek .data .more) plain (by decide)
    (walking_within _ _ _ _) (fun st input h => ?_) (fun st input off h => ?_) hrun⟩
  · match st with
    | 0 | 1 | 2 | _ + 4 => cases h
    | 3 => rfl
  · match st with
    | 0 | 2 | 3 => cases h
    | 1 | _ + 4 =>
      obtain rfl := Mp3Res.seek.inj h
      exact .inl (by decide)

end Phiola.Reader
