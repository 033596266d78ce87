import Phiola.Command.Conf

/-!
# The options of a conversion

`conv_action()` makes a configuration for each input. An input that is a list, or an entry that is one,
expands into entries with configurations of their own, and a conversion track copies the one of its
entry. What its filters read from the file is added to the tags of the track.
-/

namespace Phiola

/-- The kind of a list. -/
inductive ItemKind
  | dir
  | m3u
  | pls
  | cue
  deriving DecidableEq, Repr

def ListItem.kind : ListItem → ItemKind
  | .dir _ => .dir
  | .m3u _ _ _ => .m3u
  | .pls _ _ => .pls
  | .cue _ _ _ _ _ => .cue

/-- The loop of `conv_action()`: the configurations of the entries. -/
def convAction (v : CmdConv) : List String → Nat → List TrackConf
  | [], _ => []
  | fn :: input, h =>
    let p := convQuAdd v fn h
    p.1 :: convAction p.2.2 input p.2.1

/-- The configuration of an entry that comes from lists, from the outermost one on. -/
def expand (c : TrackConf) (items : List ListItem) (h : Nat) : TrackConf × Nat :=
  items.foldl (fun p it => it.conf p.1 p.2) (c, h)

/-- What a filter reads: a tag of the file, or the metadata of a stream. -/
inductive TagRead
  | tag (name val : String)
  | icy (artist title : String)
  deriving DecidableEq, Repr

def TagRead.isIcy : TagRead → Bool
  | .tag _ _ => false
  | .icy _ _ => true

/-- `phi_metaif.set(&t->meta, ...)`, or `icy_meta()`, which destroys the tags first. -/
def TagRead.set (m : Option (Block Meta) × Nat) : TagRead → Option (Block Meta) × Nat
  | .tag name val => metaSet m.1 name val m.2
  | .icy artist title =>
    let a := metaSet none "artist" artist m.2
    metaSet a.1 "title" title a.2

/-- A conversion track: its copy of the configuration and its tags. -/
structure ConvTrack where
  conf : TrackConf
  tags : Option (Block Meta)

def ConvTrack.pairs (t : ConvTrack) : Meta := (t.tags.map Block.val).getD []

/-- `have_user_meta`, as `qe_new()` sets it. -/
def TrackConf.haveUserMeta (c : TrackConf) : Bool := !c.pairs.isEmpty && !c.metaTransient

/-- The track that `qe_play()` creates for an entry, after it has read tags. -/
def convTrack (c : TrackConf) (reads : List TagRead) (h : Nat) : ConvTrack :=
  let m := if c.haveUserMeta then metaCopy none c.pairs h else (none,h)
  ⟨c,(reads.foldl TagRead.set m).1⟩

/-- The track has the output name of the command, its pairs before all other tags, and its settings. -/
structure Reached (v : CmdConv) (t : ConvTrack) : Prop where
  output : t.conf.ofileName.map Block.val = some v.output
  tags : v.cmdMeta <+: t.pairs
  seek : t.conf.seekMsec = v.seek
  untl : t.conf.untilMsec = v.untl
  gain : t.conf.gainDb = v.gain
  format : t.conf.format = ⟨v.aformat,v.rate,v.channels⟩
  copy : t.conf.streamCopy = v.copy

/-- The settings that no copy clears. -/
structure Settings (v : CmdConv) (c : TrackConf) : Prop where
  seek : c.seekMsec = v.seek
  untl : c.untilMsec = v.untl
  gain : c.gainDb = v.gain
  format : c.format = ⟨v.aformat,v.rate,v.channels⟩
  copy : c.streamCopy = v.copy

/-- The output name and the pairs, which a directory does not give to its files. -/
structure Named (v : CmdConv) (c : TrackConf) : Prop where
  output : c.ofileName.map Block.val = some v.output
  tags : v.cmdMeta <+: c.pairs
  user : v.cmdMeta ≠ [] → c.metaTransient = false

variable {v : CmdConv} {c : TrackConf}

theorem dupName_val (name : Option (Block String)) (h : Nat) :
    (dupName name h).1.map Block.val = name.map Block.val := by
  cases name <;> rfl

theorem CmdConv.named_pairs (v : CmdConv) : Phiola.named v.cmdMeta = v.cmdMeta :=
  List.filter_eq_self.mpr fun x hx => by simpa using v.named x hx

theorem listAdd_pairs (t : TrackConf) (url : String) (h : Nat) :
    (listAdd t url h).1.pairs = Phiola.named t.pairs := by
  simp only [listAdd,TrackConf.pairs,metaCopy_pairs,Option.map_none,Option.getD_none,List.nil_append]

theorem Settings.listAdd (hs : Settings v c) (url : String) (h : Nat) :
    Settings v (listAdd c url h).1 := ⟨hs.seek,hs.untl,hs.gain,hs.format,hs.copy⟩

theorem Settings.item (hs : Settings v c) (it : ListItem) (h : Nat) : Settings v (it.conf c h).1 := by
  cases it with
  | dir fpath => exact ⟨hs.seek,hs.untl,hs.gain,hs.format,hs.copy⟩
  | m3u url artist title =>
    have hl := hs.listAdd url h
    simp only [ListItem.conf,m3uAdd]
    split
    · exact ⟨hl.seek,hl.untl,hl.gain,hl.format,hl.copy⟩
    · exact hl
  | pls url title =>
    have hl := hs.listAdd url h
    simp only [ListItem.conf,plsAdd]
    split
    · exact ⟨hl.seek,hl.untl,hl.gain,hl.format,hl.copy⟩
    · exact hl
  | cue url start stop gmetas metas => exact ⟨hs.seek,hs.untl,hs.gain,hs.format,hs.copy⟩

theorem Named.listAdd (hn : Named v c) (url : String) (h : Nat) : Named v (listAdd c url h).1 := by
  refine ⟨(dupName_val _ _).trans hn.output,?_,hn.user⟩
  rw [listAdd_pairs,← v.named_pairs]
  exact hn.tags.filter _

/-- Each reader but that of a directory copies the name and the pairs. -/
theorem Named.item (hn : Named v c) {it : ListItem} (hit : it.kind ≠ .dir) (h : Nat) :
    Named v (it.conf c h).1 := by
  cases it with
  | dir fpath => exact absurd rfl hit
  | m3u url artist title =>
    have hl := hn.listAdd url h
    simp only [ListItem.conf,m3uAdd]
    split
    · next hnil =>
      -- the tags of the list are added only if there are no pairs
      have hv : v.cmdMeta = [] := List.prefix_nil.mp (hnil ▸ hl.tags)
      exact ⟨hl.output,by rw [hv]; exact List.nil_prefix,fun hne => absurd hv hne⟩
    · exact hl
  | pls url title =>
    have hl := hn.listAdd url h
    simp only [ListItem.conf,plsAdd]
    split
    · next hnil =>
      have hv : v.cmdMeta = [] := List.prefix_nil.mp (hnil.1 ▸ hl.tags)
      exact ⟨hl.output,by rw [hv]; exact List.nil_prefix,fun hne => absurd hv hne⟩
    · exact hl
  | cue url start stop gmetas metas =>
    have hl := hn.listAdd url h
    refine ⟨hl.output,?_,hl.user⟩
    simp only [ListItem.conf,cueAdd,TrackConf.pairs,metaCopy_pairs]
    exact (hl.tags.trans (List.prefix_append _ _)).trans (List.prefix_append _ _)

theorem expand_settings (hs : Settings v c) (items : List ListItem) (h : Nat) :
    Settings v (expand c items h).1 := by
  induction items generalizing c h with
  | nil => exact hs
  | cons it items ih => exact ih (hs.item it h) _

theorem expand_named (hn : Named v c) {items : List ListItem}
    (hit : ∀ it ∈ items, it.kind ≠ .dir) (h : Nat) : Named v (expand c items h).1 := by
  induction items generalizing c h with
  | nil => exact hn
  | cons it items ih =>
    exact ih (hn.item (hit it List.mem_cons_self) h) (fun x hx => hit x (List.mem_cons_of_mem it hx)) _

/-- The pairs of the command are freed when the first input has got them. -/
theorem convAction_get (v : CmdConv) (input : List String) (h i : Nat) (hi : i < input.length) :
    ∃ c, (convAction v input h)[i]? = some c ∧ Settings v c ∧
      c.ofileName.map Block.val = some v.output ∧ c.metaTransient = false ∧
      c.pairs = if i = 0 then v.cmdMeta else [] := by
  induction input generalizing v h i with
  | nil => cases hi
  | cons fn input ih =>
    cases i with
    | zero =>
      refine ⟨(convQuAdd v fn h).1,rfl,⟨rfl,rfl,rfl,rfl,rfl⟩,rfl,rfl,?_⟩
      simp only [convQuAdd,TrackConf.pairs,metaCopy_pairs,Option.map_none,Option.getD_none,
        List.nil_append,if_true]
      exact v.named_pairs
    | succ i =>
      obtain ⟨c,hget,hs,hout,htr,hpairs⟩ :=
        ih (convQuAdd v fn h).2.2 (convQuAdd v fn h).2.1 i (Nat.lt_of_succ_lt_succ hi)
      refine ⟨c,hget,⟨hs.seek,hs.untl,hs.gain,hs.format,hs.copy⟩,hout,htr,?_⟩
      rw [hpairs]
      simp [convQuAdd]

theorem metaSet_pairs (m : Option (Block Meta)) (name val : String) (h : Nat) :
    ((metaSet m name val h).1.map Block.val).getD [] =
      (m.map Block.val).getD [] ++ Phiola.named [(name,val)] :=
  metaCopy_pairs m [(name,val)] h

theorem reads_prefix {ps : Meta} {m : Option (Block Meta) × Nat} {reads : List TagRead}
    (hm : ps <+: (m.1.map Block.val).getD []) (hr : ∀ r ∈ reads, r.isIcy = false) :
    ps <+: ((reads.foldl TagRead.set m).1.map Block.val).getD [] := by
  induction reads generalizing m with
  | nil => exact hm
  | cons r reads ih =>
    refine ih ?_ fun x hx => hr x (List.mem_cons_of_mem r hx)
    cases r with
    | icy artist title => cases hr (.icy artist title) List.mem_cons_self
    | tag name val =>
      simp only [TagRead.set,metaSet_pairs]
      exact hm.trans (List.prefix_append _ _)

theorem reached_of_named (hs : Settings v c) (hn : Named v c) {reads : List TagRead}
    (hr : v.cmdMeta = [] ∨ ∀ r ∈ reads, r.isIcy = false) (h : Nat) : Reached v (convTrack c reads h) := by
  refine ⟨hn.output,?_,hs.seek,hs.untl,hs.gain,hs.format,hs.copy⟩
  by_cases hv : v.cmdMeta = []
  · rw [hv]
    exact List.nil_prefix
  · refine reads_prefix ?_ (hr.resolve_left hv)
    have hne : c.pairs ≠ [] := fun hnil => hv (List.prefix_nil.mp (hnil ▸ hn.tags))
    have huser : c.haveUserMeta = true := by
      simp [TrackConf.haveUserMeta,hn.user hv,hne]
    rw [if_pos huser,metaCopy_pairs,Option.map_none,Option.getD_none,List.nil_append,← v.named_pairs]
    exact hn.tags.filter _

/-- A list of its kind without tags of its own. -/
def ItemKind.blank : ItemKind → ListItem
  | .dir => .dir ""
  | .m3u => .m3u "" "" ""
  | .pls => .pls "" ""
  | .cue => .cue "" 0 0 [] []

theorem ItemKind.blank_kind (k : ItemKind) : k.blank.kind = k := by
  cases k <;> rfl

/-- The metadata of a stream with the given artist, or no tag. -/
def blankRead (artist : String) : Bool → TagRead
  | true => .icy artist ""
  | false => .tag "" ""

theorem blankRead_isIcy (artist : String) (b : Bool) : (blankRead artist b).isIcy = b := by
  cases b <;> rfl

theorem blank_pairs (hc : c.pairs = []) (k : ItemKind) (h : Nat) : (k.blank.conf c h).1.pairs = [] := by
  have hl (url : String) : (listAdd c url h).1.pairs = [] := by
    rw [listAdd_pairs,hc]
    rfl
  cases k with
  | dir => rfl
  | m3u =>
    simp only [ItemKind.blank,ListItem.conf,m3uAdd,if_pos (hl "")]
    exact hl ""
  | pls =>
    simp only [ItemKind.blank,ListItem.conf,plsAdd]
    rw [if_neg fun hp => hp.2 rfl]
    exact hl ""
  | cue =>
    have h1 : ((listAdd c "" h).1.confMeta.map Block.val).getD [] = [] := hl ""
    simp only [ItemKind.blank,ListItem.conf,cueAdd,TrackConf.pairs,metaCopy_pairs,h1]
    rfl

theorem expand_blank (hc : c.pairs = []) (kinds : List ItemKind) (h : Nat) :
    (expand c (kinds.map ItemKind.blank) h).1.pairs = [] := by
  induction kinds generalizing c h with
  | nil => exact hc
  | cons k kinds ih => exact ih (blank_pairs hc k h) _

theorem reads_blank (artist : String) (icy : List Bool) (m : Option (Block Meta) × Nat) :
    ((((icy.map (blankRead artist)).foldl TagRead.set m).1.map Block.val).getD []) =
      if true ∈ icy then [("artist",artist),("title","")] else (m.1.map Block.val).getD [] := by
  induction icy generalizing m with
  | nil => rfl
  | cons b icy ih =>
    rw [List.map_cons,List.foldl_cons,ih]
    by_cases hmem : true ∈ icy
    · rw [if_pos hmem,if_pos (List.mem_cons_of_mem b hmem)]
    · rw [if_neg hmem]
      cases b with
      | true =>
        rw [if_pos List.mem_cons_self]
        rfl
      | false =>
        rw [if_neg (by simpa using hmem)]
        rfl

theorem item_nameless (hc : c.ofileName = none) (it : ListItem) (h : Nat) :
    (it.conf c h).1.ofileName = none := by
  have hl (url : String) : (listAdd c url h).1.ofileName = none := by
    simp only [listAdd,hc]
    rfl
  cases it with
  | dir fpath => rfl
  | m3u url artist title =>
    simp only [ListItem.conf,m3uAdd]
    split
    · exact hl url
    · exact hl url
  | pls url title =>
    simp only [ListItem.conf,plsAdd]
    split
    · exact hl url
    · exact hl url
  | cue url start stop gmetas metas => exact hl url

theorem expand_nameless (hc : c.ofileName = none) (items : List ListItem) (h : Nat) :
    (expand c items h).1.ofileName = none := by
  induction items generalizing c h with
  | nil => exact hc
  | cons it items ih => exact ih (item_nameless hc it h) _

theorem expand_dir (c : TrackConf) {items : List ListItem} (hdir : .dir ∈ items.map ListItem.kind)
    (h : Nat) : (expand c items h).1.ofileName = none := by
  induction items generalizing c h with
  | nil => cases hdir
  | cons it items ih =>
    rcases List.mem_cons.mp hdir with hit | hrest
    · cases it with
      | dir fpath => exact expand_nameless rfl items _
      | m3u url artist title => cases hit
      | pls url title => cases hit
      | cue url start stop gmetas metas => cases hit
    · exact ih _ hrest _

theorem map_blank_kind (kinds : List ItemKind) :
    (kinds.map ItemKind.blank).map ListItem.kind = kinds := by
  induction kinds with
  | nil => rfl
  | cons k kinds ih => rw [List.map_cons,List.map_cons,ih,ItemKind.blank_kind]

theorem map_blankRead_isIcy (artist : String) (icy : List Bool) :
    (icy.map (blankRead artist)).map TagRead.isIcy = icy := by
  induction icy with
  | nil => rfl
  | cons b icy ih => rw [List.map_cons,List.map_cons,ih,blankRead_isIcy]

/-- No pair reaches a track through an entry without pairs, or past the metadata of a stream. -/
theorem lost_pairs (hv : v.cmdMeta ≠ []) (kinds : List ItemKind) {icy : List Bool}
    (hlost : c.pairs = [] ∨ true ∈ icy) (h h' : Nat) :
    ∃ artist, ¬ Reached v (convTrack (expand c (kinds.map ItemKind.blank) h).1
      (icy.map (blankRead artist)) h') := by
  obtain ⟨x,rest,hx⟩ := List.exists_cons_of_ne_nil hv
  refine ⟨x.2 ++ "a",fun hr => ?_⟩
  have htags := hr.tags
  simp only [ConvTrack.pairs,convTrack,reads_blank,hx] at htags
  by_cases hicy : true ∈ icy
  · rw [if_pos hicy] at htags
    -- the artist is another one than the first pair may give
    have hhead : x = ("artist",x.2 ++ "a") := (List.cons_prefix_cons.mp htags).1
    have hlen := congrArg (fun y => y.2.length) hhead
    simp at hlen
  · have hnil := expand_blank (hlost.resolve_right hicy) kinds h
    rw [if_neg hicy,hnil] at htags
    simp [TrackConf.haveUserMeta,hnil] at htags

/-- A command gives its options to the tracks of an input, whatever its lists and its files hold, just
when no directory stands between them and, if there are pairs, the input is the first one and no stream
replaces the tags. -/
theorem options_reach (v : CmdConv) (input : List String) (h i : Nat) (hi : i < input.length)
    (kinds : List ItemKind) (icy : List Bool) :
    (∀ items reads g g', items.map ListItem.kind = kinds → reads.map TagRead.isIcy = icy →
        ∀ c ∈ (convAction v input h)[i]?, Reached v (convTrack (expand c items g).1 reads g')) ↔
      ItemKind.dir ∉ kinds ∧ (v.cmdMeta = [] ∨ i = 0 ∧ true ∉ icy) := by
  obtain ⟨c,hget,hset,hout,htr,hpairs⟩ := convAction_get v input h i hi
  constructor
  · intro hall
    refine ⟨fun hdir => ?_,?_⟩
    · have hr := hall (kinds.map ItemKind.blank) (icy.map (blankRead "")) h h (map_blank_kind kinds)
        (map_blankRead_isIcy "" icy) c hget
      have hk : .dir ∈ (kinds.map ItemKind.blank).map ListItem.kind := by rwa [map_blank_kind]
      have hnone := expand_dir c hk h
      have hname := hr.output
      simp [convTrack,hnone] at hname
    · by_contra hcon
      obtain ⟨hv,hrest⟩ := not_or.mp hcon
      have hlost : c.pairs = [] ∨ true ∈ icy := by
        by_cases h0 : i = 0
        · exact Or.inr (by_contra fun hn => hrest ⟨h0,hn⟩)
        · exact Or.inl (hpairs.trans (if_neg h0))
      obtain ⟨artist,hnot⟩ := lost_pairs hv kinds hlost h h
      exact hnot (hall (kinds.map ItemKind.blank) (icy.map (blankRead artist)) h h
        (map_blank_kind kinds) (map_blankRead_isIcy artist icy) c hget)
  · rintro ⟨hdir,hmeta⟩ items reads g g' rfl rfl d hd
    obtain rfl : c = d := Option.some.inj (hget.symm.trans hd)
    have hn : Named v c := by
      refine ⟨hout,?_,fun _ => htr⟩
      rcases hmeta with hv | ⟨h0,-⟩
      · rw [hv]
        exact List.nil_prefix
      · have heq : c.pairs = v.cmdMeta := hpairs.trans (if_pos h0)
        exact heq.symm ▸ List.prefix_rfl
    refine reached_of_named (expand_settings hset items g) (expand_named hn ?_ g) ?_ g'
    · exact fun it hit hk => hdir (List.mem_map.mpr ⟨it,hit,hk⟩)
    · rcases hmeta with hv | ⟨-,hicy⟩
      · exact Or.inl hv
      · refine Or.inr fun r hr => Bool.eq_false_iff.mpr fun hb => hicy ?_
        exact List.mem_map.mpr ⟨r,hr,hb⟩

/-- A conversion into MP3 files with one pair. -/
def convGenre : CmdConv :=
  ⟨"o.mp3",[("genre","x")],none,0,false,0,0,0,0,0,by simp⟩

/-- The entries of a playlist that is the first input have all options. -/
theorem options_reach_list :
    ∃ c, (convAction convGenre ["a.m3u","b.flac"] 0)[0]? = some c ∧
      Reached convGenre (convTrack (expand c [.m3u "c.flac" "" ""] 20).1 [.tag "title" "t"] 30) :=
  ⟨_,rfl,(options_reach convGenre ["a.m3u","b.flac"] 0 0 (by decide) [.m3u] [false]).mpr
    ⟨by decide,Or.inr ⟨rfl,by decide⟩⟩ _ _ _ _ rfl rfl _ rfl⟩

/-- The second input has no pair, a file of a directory no name, and a stream's metadata replaces the
pairs of the first input. -/
theorem options_lost :
    (∃ c, (convAction convGenre ["a.flac","b.flac"] 0)[1]? = some c ∧
      (convTrack c [] 20).pairs = [] ∧ ¬ Reached convGenre (convTrack c [] 20)) ∧
    (∃ c, (convAction convGenre ["d"] 0)[0]? = some c ∧
      (expand c [.dir "d/a.flac"] 20).1.ofileName.isNone ∧
        ¬ Reached convGenre (convTrack (expand c [.dir "d/a.flac"] 20).1 [] 30)) ∧
    ∃ c, (convAction convGenre ["a.flac"] 0)[0]? = some c ∧
      (convTrack c [.icy "a" "t"] 20).pairs = [("artist","a"),("title","t")] ∧
        ¬ Reached convGenre (convTrack c [.icy "a" "t"] 20) := by
  refine ⟨⟨_,rfl,rfl,fun hr => ?_⟩,⟨_,rfl,rfl,fun hr => ?_⟩,⟨_,rfl,rfl,fun hr => ?_⟩⟩
  · have htags : [("genre","x")] <+: ([] : Meta) := hr.tags
    exact absurd htags (by decide)
  · have hname : none = some "o.mp3" := hr.output
    cases hname
  · have htags : [("genre","x")] <+: [("artist","a"),("title","t")] := hr.tags
    exact absurd htags (by decide)

end Phiola
