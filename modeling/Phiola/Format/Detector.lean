import Phiola.File.Name
import Phiola.Track.Conveyor
import Phiola.Util.Sorted

/-!
# File formats

`file_format_detect()` looks at the first bytes of a file, and the tables of the modules name the filter for a
format or an extension. A name is bytes without the zero behind them.
-/

namespace Phiola.Detector

open FileName (chars)

abbrev Bytes := List UInt8

/-! ## The first bytes -/

/-- `enum FILE_FORMAT` -/
inductive FileFormat
  | unk | avi | caf | flac | m3u | mkv | mp3 | mp4 | ogg | pls | wav | wv | id3
deriving DecidableEq, Repr

/-- `!ffmem_cmp(&d[i], s, n)` -/
def has (d : Bytes) (i : Nat) (s : Bytes) : Bool := (d.drop i).take s.length = s

def RIFF : Bytes := chars ['R','I','F','F']
def WAVE : Bytes := chars ['W','A','V','E']
def AVI : Bytes := chars ['A','V','I',' ']
def PLAYLIST : Bytes := chars ['[','p','l','a','y','l','i','s','t',']']
def WVPK : Bytes := chars ['w','v','p','k']
def FTYP : Bytes := chars ['f','t','y','p']
def CAFF : Bytes := chars ['c','a','f','f'] ++ [0,1,0,0]
def EXTM3U : Bytes := chars ['#','E','X','T','M','3','U']
def OGGS : Bytes := chars ['O','g','g','S']
def FLAC : Bytes := chars ['f','L','a','C']
def ID3 : Bytes := chars ['I','D','3']
def EBML : Bytes := [0x1a,0x45,0xdf,0xa3]

/-- `d[i]` -/
def byte (d : Bytes) (i : Nat) : Nat := (d.getD i 0).toNat

def line_end (d : Bytes) (i : Nat) : Bool := byte d i = 13 || byte d i = 10

/-- `ffint_be_cpu32_ptr()` -/
def be32 (d : Bytes) : Nat := ((byte d 0 * 256 + byte d 1) * 256 + byte d 2) * 256 + byte d 3

/-- `file_format_detect()` -/
def file_format_detect (d : Bytes) : FileFormat :=
  if d.length ≥ 12 ∧ has d 0 RIFF ∧ has d 8 WAVE then .wav
  else if d.length ≥ 12 ∧ has d 0 RIFF ∧ has d 8 AVI then .avi
  else if d.length ≥ 11 ∧ has d 0 PLAYLIST ∧ line_end d 10 then .pls
  else if d.length ≥ 10 ∧ has d 0 WVPK ∧ byte d 9 = 4 then .wv
  else if d.length ≥ 8 ∧ has d 4 FTYP ∧ be32 d ≤ 255 then .mp4
  else if d.length ≥ 8 ∧ has d 0 CAFF then .caf
  else if d.length ≥ 8 ∧ has d 0 EXTM3U ∧ line_end d 7 then .m3u
  else if d.length ≥ 5 ∧ has d 0 OGGS ∧ byte d 4 = 0 then .ogg
  else if d.length ≥ 5 ∧ has d 0 FLAC ∧ byte d 4 % 128 < 9 then .flac
  else if d.length ≥ 5 ∧ has d 0 ID3 ∧ byte d 3 ≤ 9 ∧ byte d 4 ≤ 9 then .id3
  else if d.length ≥ 4 ∧ has d 0 EBML then .mkv
  else if d.length ≥ 2 ∧ byte d 0 = 255 ∧ byte d 1 &&& 0xe0 = 0xe0 ∧ byte d 1 &&& 0x18 = 0x18 ∧
      byte d 1 &&& 6 = 2 then .mp3
  else .unk

/-- What a file of the format starts with, each format looked at alone. -/
def Signature (d : Bytes) : FileFormat → Prop
  | .unk => False
  | .wav => d.length ≥ 12 ∧ has d 0 RIFF ∧ has d 8 WAVE
  | .avi => d.length ≥ 12 ∧ has d 0 RIFF ∧ has d 8 AVI
  | .pls => d.length ≥ 11 ∧ has d 0 PLAYLIST ∧ line_end d 10
  | .wv => d.length ≥ 10 ∧ has d 0 WVPK ∧ byte d 9 = 4
  | .mp4 => d.length ≥ 8 ∧ has d 4 FTYP ∧ be32 d ≤ 255
  | .caf => d.length ≥ 8 ∧ has d 0 CAFF
  | .m3u => d.length ≥ 8 ∧ has d 0 EXTM3U ∧ line_end d 7
  | .ogg => d.length ≥ 5 ∧ has d 0 OGGS ∧ byte d 4 = 0
  | .flac => d.length ≥ 5 ∧ has d 0 FLAC ∧ byte d 4 % 128 < 9
  | .id3 => d.length ≥ 5 ∧ has d 0 ID3 ∧ byte d 3 ≤ 9 ∧ byte d 4 ≤ 9
  | .mkv => d.length ≥ 4 ∧ has d 0 EBML
  | .mp3 => d.length ≥ 2 ∧ byte d 0 = 255 ∧ byte d 1 &&& 0xe0 = 0xe0 ∧ byte d 1 &&& 0x18 = 0x18 ∧
      byte d 1 &&& 6 = 2

/-- The format that the bytes 0 and 8 leave -/
def marked (b0 b8 : Nat) : FileFormat :=
  match b0 with
  | 82 => if b8 = 87 then .wav else .avi
  | 91 => .pls
  | 119 => .wv
  | 0 => .mp4
  | 99 => .caf
  | 35 => .m3u
  | 79 => .ogg
  | 102 => .flac
  | 73 => .id3
  | 0x1a => .mkv
  | 255 => .mp3
  | _ => .unk

theorem has_byte {d s : Bytes} {i : Nat} (h : has d i s = true) {k : Nat} (hk : k < s.length) :
    byte d (i + k) = s[k].toNat := by
  have hs : (d.drop i).take s.length = s := of_decide_eq_true h
  have hg : ((d.drop i).take s.length)[k]? = some s[k] := by rw [hs,List.getElem?_eq_getElem hk]
  rw [List.getElem?_take,if_pos hk,List.getElem?_drop] at hg
  rw [byte,List.getD_eq_getElem?_getD,hg]
  rfl

theorem has_append {d s : Bytes} {i : Nat} (h : has d i s = true) (hl : i + s.length ≤ d.length) (e : Bytes) :
    has (d ++ e) i s = true := by
  have hs : (d.drop i).take s.length = s := of_decide_eq_true h
  apply decide_eq_true
  rw [List.drop_append_of_le_length (by omega),List.take_append_of_le_length (by rw [List.length_drop]; omega)]
  exact hs

theorem byte_append {d : Bytes} {i : Nat} (h : i < d.length) (e : Bytes) : byte (d ++ e) i = byte d i := by
  rw [byte,byte,List.getD_eq_getElem?_getD,List.getD_eq_getElem?_getD,List.getElem?_append_left h]

theorem signature_marked {d : Bytes} {f : FileFormat} (h : Signature d f) : marked (byte d 0) (byte d 8) = f := by
  have h0 : ∀ {s : Bytes} {b : Nat},has d 0 s = true → s.head?.map UInt8.toNat = some b → byte d 0 = b := by
    intro s b hs hb
    cases s with
    | nil => simp at hb
    | cons c s => exact (has_byte (i := 0) (k := 0) hs (by simp)).trans (by simpa using hb)
  cases f with
  | unk => exact h.elim
  | wav =>
    have h8 : byte d 8 = 87 := has_byte (i := 8) (k := 0) h.2.2 (by decide)
    rw [h0 h.2.1 rfl,h8]
    rfl
  | avi =>
    have h8 : byte d 8 = 65 := has_byte (i := 8) (k := 0) h.2.2 (by decide)
    rw [h0 h.2.1 rfl,h8]
    rfl
  | mp4 =>
    have hz : byte d 0 = 0 := by
      obtain ⟨-,-,h32⟩ := h
      simp only [be32] at h32
      omega
    rw [hz]
    rfl
  | mp3 =>
    rw [h.2.1]
    rfl
  | caf | mkv =>
    rw [h0 h.2 rfl]
    rfl
  | pls | wv | m3u | ogg | flac | id3 =>
    rw [h0 h.2.1 rfl]
    rfl

/-- No data has the signatures of two formats, so the order of the checks is of no account. -/
theorem signature_unique {d : Bytes} {f g : FileFormat} (hf : Signature d f) (hg : Signature d g) : f = g :=
  (signature_marked hf).symm.trans (signature_marked hg)

theorem picked {d : Bytes} {p : Prop} [Decidable p] {f g : FileFormat} (hp : p → Signature d f)
    (hg : g = .unk ∨ Signature d g) : (if p then f else g) = .unk ∨ Signature d (if p then f else g) := by
  by_cases h : p
  · rw [if_pos h]
    exact .inr (hp h)
  · rw [if_neg h]
    exact hg

theorem not_picked {p : Prop} [Decidable p] {f g : FileFormat} (hf : f ≠ .unk)
    (h : (if p then f else g) = .unk) : ¬ p ∧ g = .unk := by
  by_cases hp : p
  · exact absurd ((if_pos hp).symm.trans h) hf
  · exact ⟨hp,(if_neg hp).symm.trans h⟩

theorem detect_signature (d : Bytes) : file_format_detect d = .unk ∨ Signature d (file_format_detect d) := by
  unfold file_format_detect
  iterate 12 refine picked id ?_
  exact .inl rfl

theorem no_signature {d : Bytes} (h : file_format_detect d = .unk) (f : FileFormat) : ¬ Signature d f := by
  unfold file_format_detect at h
  obtain ⟨wav,h⟩ := not_picked (by decide) h
  obtain ⟨avi,h⟩ := not_picked (by decide) h
  obtain ⟨pls,h⟩ := not_picked (by decide) h
  obtain ⟨wv,h⟩ := not_picked (by decide) h
  obtain ⟨mp4,h⟩ := not_picked (by decide) h
  obtain ⟨caf,h⟩ := not_picked (by decide) h
  obtain ⟨m3u,h⟩ := not_picked (by decide) h
  obtain ⟨ogg,h⟩ := not_picked (by decide) h
  obtain ⟨flac,h⟩ := not_picked (by decide) h
  obtain ⟨id3,h⟩ := not_picked (by decide) h
  obtain ⟨mkv,h⟩ := not_picked (by decide) h
  obtain ⟨mp3,-⟩ := not_picked (by decide) h
  cases f <;> first | assumption | exact id

theorem detect_iff {d : Bytes} {f : FileFormat} (hf : f ≠ .unk) : file_format_detect d = f ↔ Signature d f := by
  rcases detect_signature d with hu | hs
  · exact ⟨fun h => absurd (h.symm.trans hu) hf,fun h => absurd h (no_signature hu f)⟩
  · exact ⟨fun h => h ▸ hs,fun h => signature_unique hs h⟩

theorem signature_append {d : Bytes} {f : FileFormat} (h : Signature d f) (e : Bytes) : Signature (d ++ e) f := by
  have hl : ∀ {n : Nat},d.length ≥ n → (d ++ e).length ≥ n := by
    intro n hn
    rw [List.length_append]
    omega
  cases f with
  | unk => exact h
  | wav | avi => exact ⟨hl h.1,has_append h.2.1 (Nat.le_trans (by decide) h.1) e,
      has_append h.2.2 (Nat.le_trans (by decide) h.1) e⟩
  | pls | m3u => exact ⟨hl h.1,has_append h.2.1 (Nat.le_trans (by decide) h.1) e,by
      rw [line_end,byte_append (Nat.lt_of_lt_of_le (by decide) h.1)]
      exact h.2.2⟩
  | wv | ogg => exact ⟨hl h.1,has_append h.2.1 (Nat.le_trans (by decide) h.1) e,by
      rw [byte_append (Nat.lt_of_lt_of_le (by decide) h.1)]
      exact h.2.2⟩
  | mp4 =>
    refine ⟨hl h.1,has_append h.2.1 (Nat.le_trans (by decide) h.1) e,?_⟩
    have hb : ∀ i < 4,byte (d ++ e) i = byte d i := by
      intro i hi
      have h8 := h.1
      exact byte_append (by omega) e
    rw [be32,hb 0 (by decide),hb 1 (by decide),hb 2 (by decide),hb 3 (by decide)]
    exact h.2.2
  | caf | mkv => exact ⟨hl h.1,has_append h.2 (Nat.le_trans (by decide) h.1) e⟩
  | flac => exact ⟨hl h.1,has_append h.2.1 (Nat.le_trans (by decide) h.1) e,by
      rw [byte_append (Nat.lt_of_lt_of_le (by decide) h.1)]
      exact h.2.2⟩
  | id3 => exact ⟨hl h.1,has_append h.2.1 (Nat.le_trans (by decide) h.1) e,by
      rw [byte_append (Nat.lt_of_lt_of_le (by decide) h.1),byte_append (Nat.lt_of_lt_of_le (by decide) h.1)]
      exact h.2.2⟩
  | mp3 => exact ⟨hl h.1,by
      rw [byte_append (Nat.lt_of_lt_of_le (by decide) h.1),byte_append (Nat.lt_of_lt_of_le (by decide) h.1)]
      exact h.2⟩

/-- A file is found to have a format exactly where the format's own signature is, whatever comes behind it: no
data has two signatures, and more data changes nothing about a format that was found. -/
theorem detect_stable {d : Bytes} {f : FileFormat} (hf : f ≠ .unk) :
    (file_format_detect d = f ↔ Signature d f) ∧
      (file_format_detect d = f → ∀ e,file_format_detect (d ++ e) = f) :=
  ⟨detect_iff hf,fun h e => (detect_iff hf).mpr (signature_append ((detect_iff hf).mp h) e)⟩

theorem detect_stable_flac :
    (file_format_detect (FLAC ++ [0]) = .flac ↔ Signature (FLAC ++ [0]) .flac) ∧
      (file_format_detect (FLAC ++ [0]) = .flac → ∀ e,file_format_detect (FLAC ++ [0] ++ e) = .flac) :=
  detect_stable (by decide)

/-! ## The tables of the modules -/

/-- `map_sz_vptr_findz2()` and `map_sz_vptr_findstr()`. The search passes over the eight bytes of a pointer
without a look at them, they are zeros here. -/
def map_sz_vptr_find {α : Type} (m : List (Bytes × α)) (name : Bytes) : Option α :=
  match Sorted.ffcharr_findsorted_padding (m.length + 1)
    (Sorted.table 16 (m.map fun e => (e.1,List.replicate 8 0))) m.length 16 8 name with
  | some (some i) => if i < 0 then none else m[i.toNat]?.map Prod.snd
  | _ => none

/-- A filter that has both functions -/
def filter (name : String) : PhiFilter := ⟨name,true,true⟩

/-- The table of `fmt_mod_iface_input()` -/
def mods_input : List (Bytes × PhiFilter) := [
  (chars ['a','a','c'],filter "aac-adts-read"),
  (chars ['a','p','e'],filter "ape-read"),
  (chars ['a','v','i'],filter "avi-read"),
  (chars ['c','a','f'],filter "caf-read"),
  (chars ['c','u','e'],filter "cue-read"),
  (chars ['f','l','a','c'],filter "flac-read"),
  (chars ['m','3','u'],filter "m3u-read"),
  (chars ['m','3','u','8'],filter "m3u-read"),
  (chars ['m','4','a'],filter "mp4-read"),
  (chars ['m','k','a'],filter "mkv-read"),
  (chars ['m','k','v'],filter "mkv-read"),
  (chars ['m','p','3'],filter "mp3-read"),
  (chars ['m','p','4'],filter "mp4-read"),
  (chars ['m','p','c'],filter "mpc-read"),
  (chars ['o','g','g'],filter "ogg-read"),
  (chars ['o','p','u','s'],filter "ogg-read"),
  (chars ['p','l','s'],filter "pls-read"),
  (chars ['w','a','v'],filter "wav-read"),
  (chars ['w','v'],filter "wv-read")]

/-- The table of `phi_autow_process()` -/
def mods_output : List (Bytes × PhiFilter) := [
  (chars ['a','a','c'],filter "aac-adts-write"),
  (chars ['f','l','a','c'],filter "flac-write"),
  (chars ['m','4','a'],filter "mp4-write"),
  (chars ['m','p','3'],filter "mp3-write"),
  (chars ['m','p','4'],filter "mp4-write"),
  (chars ['o','g','g'],filter "ogg-write"),
  (chars ['o','p','u','s'],filter "ogg-write"),
  (chars ['w','a','v'],filter "wav-write")]

def fmt_mod_iface_input (name : Bytes) : Option PhiFilter := map_sz_vptr_find mods_input name

/-- The keys fit into the table and are in order. -/
structure InTable {α : Type} (m : List (Bytes × α)) : Prop where
  fits : ∀ e ∈ m,0 ∉ e.1 ∧ e.1.length ≤ 16
  order : (m.map Prod.fst).Pairwise (· < ·)

theorem find_iff {α : Type} {m : List (Bytes × α)} (h : InTable m) {name : Bytes} (hn : 0 ∉ name) (f : α) :
    map_sz_vptr_find m name = some f ↔ (name,f) ∈ m := by
  have hkeys : (m.map fun e => (e.1,List.replicate 8 (0 : UInt8))).map Prod.fst = m.map Prod.fst := by
    rw [List.map_map]
    rfl
  have hf : Sorted.Fits 16 8 (m.map fun e => (e.1,List.replicate 8 0)) := by
    intro e he
    obtain ⟨x,hx,rfl⟩ := List.mem_map.mp he
    exact ⟨(h.fits x hx).1,(h.fits x hx).2,List.length_replicate⟩
  obtain ⟨r,hr,hidx,hnone⟩ := Sorted.search_found hf (by rw [Sorted.InOrder,hkeys]; exact h.order) hn
  rw [List.length_map] at hr
  rw [hkeys] at hidx hnone
  simp only [map_sz_vptr_find,hr]
  by_cases hm : name ∈ m.map Prod.fst
  · obtain ⟨i,hi⟩ := List.mem_iff_getElem?.mp hm
    obtain rfl : r = i := (hidx i).mpr hi
    rw [if_neg (by omega),Int.toNat_natCast,Option.map_eq_some_iff]
    constructor
    · rintro ⟨e,he,rfl⟩
      rw [List.getElem?_map,he,Option.map_some,Option.some.injEq] at hi
      exact hi ▸ List.mem_of_getElem? he
    · intro hmem
      obtain ⟨j,hj⟩ := List.mem_iff_getElem?.mp hmem
      have hij : ((i : Nat) : Int) = j := (hidx j).mpr (by rw [List.getElem?_map,hj]; rfl)
      obtain rfl : i = j := by omega
      exact ⟨_,hj,rfl⟩
  · rw [hnone hm,if_pos (by decide)]
    exact ⟨fun h => (by cases h),fun h => absurd (List.mem_map_of_mem (f := Prod.fst) h) hm⟩

theorem find_none {α : Type} {m : List (Bytes × α)} (h : InTable m) {name : Bytes} (hn : 0 ∉ name)
    (hm : name ∉ m.map Prod.fst) : map_sz_vptr_find m name = none := by
  cases hf : map_sz_vptr_find m name with
  | none => rfl
  | some f => exact absurd (List.mem_map_of_mem (f := Prod.fst) ((find_iff h hn f).mp hf)) hm

theorem mods_input_table : InTable mods_input := ⟨by decide,by decide⟩

theorem mods_output_table : InTable mods_output := ⟨by decide,by decide⟩

/-! ## The reader of a file -/

def file_ext : List Bytes := [
  chars ['a','v','i'],
  chars ['c','a','f'],
  chars ['f','l','a','c'],
  chars ['m','3','u'],
  chars ['m','k','v'],
  chars ['m','p','3'],
  chars ['m','p','4'],
  chars ['o','g','g'],
  chars ['p','l','s'],
  chars ['w','a','v'],
  chars ['w','v'],
  []]

def FileFormat.code : FileFormat → Nat
  | .unk => 0
  | .avi => 1
  | .caf => 2
  | .flac => 3
  | .m3u => 4
  | .mkv => 5
  | .mp3 => 6
  | .mp4 => 7
  | .ogg => 8
  | .pls => 9
  | .wav => 10
  | .wv => 11
  | .id3 => 12

def lower (b : UInt8) : UInt8 := if 65 ≤ b ∧ b ≤ 90 then b + 32 else b

/-- `ffstr_ieqz()` -/
def ieq (a b : Bytes) : Bool := a.map lower = b.map lower

/-- `ext` of `fdetcr_open()`: the name of the format that was found, else the data type, else the extension of
the file. FLAC data may have an ID3 tag before it. -/
def fdetcr_ext (ffpath_slash : UInt8) (ifile_name : Bytes) (data_type : Option Bytes) (data_in : Bytes) : Bytes :=
  let ext := data_type.getD (FileName.ffpath_split3_str ffpath_slash ifile_name).2.2
  match file_format_detect data_in with
  | .unk => ext
  | .id3 => file_ext.getD ((if ieq ext (chars ['f','l','a','c']) then FileFormat.flac else .mp3).code - 1) []
  | f => file_ext.getD (f.code - 1) []

/-- `f` of `fdetcr_open()` -/
def fdetcr_input (ffpath_slash : UInt8) (ifile_name : Bytes) (data_type : Option Bytes) (data_in : Bytes) :
    Option PhiFilter :=
  let ext := fdetcr_ext ffpath_slash ifile_name data_type data_in
  if ext ≠ [] then fmt_mod_iface_input ext else none

theorem mem_find {α : Type} {m : List (Bytes × α)} (h : InTable m) {e : Bytes × α} (he : e ∈ m) :
    map_sz_vptr_find m e.1 = some e.2 := (find_iff h (h.fits e he).1 e.2).mpr he

/-- The reader of a format, by the name that its files have. -/
def reader : FileFormat → String
  | .unk => ""
  | .avi => "avi-read"
  | .caf => "caf-read"
  | .flac => "flac-read"
  | .m3u => "m3u-read"
  | .mkv => "mkv-read"
  | .mp3 | .id3 => "mp3-read"
  | .mp4 => "mp4-read"
  | .ogg => "ogg-read"
  | .pls => "pls-read"
  | .wav => "wav-read"
  | .wv => "wv-read"

theorem input_of_ext {slash : UInt8} {name data : Bytes} {ty : Option Bytes} {e : Bytes × PhiFilter}
    (he : e ∈ mods_input) (hx : fdetcr_ext slash name ty data = e.1) (h0 : e.1 ≠ []) :
    fdetcr_input slash name ty data = some e.2 := by
  simp only [fdetcr_input,hx,ne_eq,h0,not_false_eq_true,if_true,fmt_mod_iface_input,
    mem_find mods_input_table he]

/-- Data whose format is found has the reader of this format, whatever the file is named and the data said to
be; only the extension `flac` turns an ID3 tag into FLAC. -/
theorem input_detected {slash : UInt8} {name data : Bytes} {ty : Option Bytes}
    (h : file_format_detect data ≠ .unk) : fdetcr_input slash name ty data = some (filter (reader
      (if file_format_detect data = .id3 ∧ ieq (ty.getD (FileName.ffpath_split3_str slash name).2.2)
        (chars ['f','l','a','c']) then .flac else file_format_detect data))) := by
  cases hd : file_format_detect data with
  | unk => exact absurd hd h
  | id3 =>
    by_cases hf : ieq (ty.getD (FileName.ffpath_split3_str slash name).2.2) (chars ['f','l','a','c']) = true
    · rw [if_pos ⟨rfl,hf⟩]
      exact input_of_ext (e := (chars ['f','l','a','c'],filter "flac-read")) (by decide)
        (by simp [fdetcr_ext,hd,hf,file_ext,FileFormat.code]) (by decide)
    · rw [if_neg (by simp [hf])]
      exact input_of_ext (e := (chars ['m','p','3'],filter "mp3-read")) (by decide)
        (by simp [fdetcr_ext,hd,hf,file_ext,FileFormat.code]) (by decide)
  | avi =>
    exact input_of_ext (e := (chars ['a','v','i'],filter "avi-read")) (by decide)
      (by simp [fdetcr_ext,hd,file_ext,FileFormat.code]) (by decide)
  | caf =>
    exact input_of_ext (e := (chars ['c','a','f'],filter "caf-read")) (by decide)
      (by simp [fdetcr_ext,hd,file_ext,FileFormat.code]) (by decide)
  | flac =>
    exact input_of_ext (e := (chars ['f','l','a','c'],filter "flac-read")) (by decide)
      (by simp [fdetcr_ext,hd,file_ext,FileFormat.code]) (by decide)
  | m3u =>
    exact input_of_ext (e := (chars ['m','3','u'],filter "m3u-read")) (by decide)
      (by simp [fdetcr_ext,hd,file_ext,FileFormat.code]) (by decide)
  | mkv =>
    exact input_of_ext (e := (chars ['m','k','v'],filter "mkv-read")) (by decide)
      (by simp [fdetcr_ext,hd,file_ext,FileFormat.code]) (by decide)
  | mp3 =>
    exact input_of_ext (e := (chars ['m','p','3'],filter "mp3-read")) (by decide)
      (by simp [fdetcr_ext,hd,file_ext,FileFormat.code]) (by decide)
  | mp4 =>
    exact input_of_ext (e := (chars ['m','p','4'],filter "mp4-read")) (by decide)
      (by simp [fdetcr_ext,hd,file_ext,FileFormat.code]) (by decide)
  | ogg =>
    exact input_of_ext (e := (chars ['o','g','g'],filter "ogg-read")) (by decide)
      (by simp [fdetcr_ext,hd,file_ext,FileFormat.code]) (by decide)
  | pls =>
    exact input_of_ext (e := (chars ['p','l','s'],filter "pls-read")) (by decide)
      (by simp [fdetcr_ext,hd,file_ext,FileFormat.code]) (by decide)
  | wav =>
    exact input_of_ext (e := (chars ['w','a','v'],filter "wav-read")) (by decide)
      (by simp [fdetcr_ext,hd,file_ext,FileFormat.code]) (by decide)
  | wv =>
    exact input_of_ext (e := (chars ['w','v'],filter "wv-read")) (by decide)
      (by simp [fdetcr_ext,hd,file_ext,FileFormat.code]) (by decide)

end Phiola.Detector
