import Mathlib.Data.List.TakeWhile
import Mathlib.Tactic.IntervalCases
import Phiola.Framework.KeyLines
import Phiola.Framework.Machine

/-!
# The settings of the Android player

The settings are written as lines with a name and a value. The native code reads the lines and gives back the
number of each name, and the parts of the player take the values that are theirs. What the JNI does to the
characters of a text is left out, but for the zero that ends it.
-/

namespace Phiola.Android.UserConf

abbrev Text := List Char

/-! ### `Util` -/

/-- `Character.digit()`, for any radix: the digits that are not below the radix are none. -/
abbrev Digit := Char → Option Nat

variable (digit : Digit)

def add_digit (radix n : Nat) (c : Char) : Option Nat :=
  (digit c).bind fun d => if d < radix then some (n * radix + d) else none

/-- The digits of a number, in `Integer.decode()`. -/
def digits (radix : Nat) (s : Text) : Option Nat :=
  if s = [] ∨ s.head? = some '-' ∨ s.head? = some '+' then none else s.foldlM (add_digit digit radix) 0

/-- What `Integer.decode()` does behind the sign. -/
def unsigned : Text → Option Nat
  | '0' :: 'x' :: s => digits digit 16 s
  | '0' :: 'X' :: s => digits digit 16 s
  | '#' :: s => digits digit 16 s
  | '0' :: c :: s => digits digit 8 (c :: s)
  | s => digits digit 10 s

def in_range (v : Int) : Option Int := if -2 ^ 31 ≤ v ∧ v < 2 ^ 31 then some v else none

/-- `Integer.decode()` -/
def decode : Text → Option Int
  | '-' :: s => (unsigned digit s).bind fun n => in_range (-n)
  | '+' :: s => (unsigned digit s).bind fun n => in_range n
  | s => (unsigned digit s).bind fun n => in_range n

def str_to_uint (s : Text) (d : Int) : Int :=
  match decode digit s with
  | some i => if 0 ≤ i then i else d
  | none => d

def str_to_int (s : Text) (d : Int) : Int := (decode digit s).getD d

def str_to_bool (s : Text) : Bool := s = ['1']

def bool_to_int (b : Bool) : Int := if b then 1 else 0

/-- `%d`, in a default locale whose digits are 0 to 9 -/
def decimal : Int → Text
  | .ofNat n => Nat.toDigits 10 n
  | .negSucc n => '-' :: Nat.toDigits 10 (n + 1)

/-- An `int` that is multiplied. -/
def wrap (v : Int) : Int := (v + 2 ^ 31) % 2 ^ 32 - 2 ^ 31

/-! ### The settings -/

/-- `Phiola.CONF_…`, numbered from 1 -/
inductive Conf where
  | CODEPAGE | CONV_AAC_Q | CONV_COPY | CONV_FILE_DATE_PRES | CONV_NEW_ADD_LIST | CONV_OPUS_Q | CONV_OUTEXT
  | CONV_VORBIS_Q | LIST_ACTIVE | LIST_ADD_RM_ON_NEXT | LIST_CURPOS | LIST_POS | LIST_RANDOM | LIST_REPEAT
  | LIST_RM_ON_ERR | LIST_RM_ON_NEXT | OP_DATA_DIR | OP_FILE_DELETE | OP_PLIST_SAVE_DIR | OP_QUICK_MOVE_DIR
  | OP_TRASH_DIR_REL | PLAY_AUTO_SKIP | PLAY_AUTO_SKIP_TAIL | PLAY_AUTO_STOP | PLAY_NO_TAGS | REC_BITRATE
  | REC_BUF_LEN | REC_CHANNELS | REC_DANORM | REC_ENC | REC_EXCLUSIVE | REC_GAIN | REC_PATH | REC_RATE
  | REC_UNTIL | UI_CURPATH | UI_FILTER_HIDE | UI_INFO_IN_TITLE | UI_RECORD_HIDE | UI_STATE_HIDE
  | UI_SVC_NOTFN_DISABLE | UI_THEME
deriving DecidableEq, Repr

def Conf.all : List Conf :=
  [.CODEPAGE,.CONV_AAC_Q,.CONV_COPY,.CONV_FILE_DATE_PRES,.CONV_NEW_ADD_LIST,.CONV_OPUS_Q,.CONV_OUTEXT,
    .CONV_VORBIS_Q,.LIST_ACTIVE,.LIST_ADD_RM_ON_NEXT,.LIST_CURPOS,.LIST_POS,.LIST_RANDOM,.LIST_REPEAT,
    .LIST_RM_ON_ERR,.LIST_RM_ON_NEXT,.OP_DATA_DIR,.OP_FILE_DELETE,.OP_PLIST_SAVE_DIR,.OP_QUICK_MOVE_DIR,
    .OP_TRASH_DIR_REL,.PLAY_AUTO_SKIP,.PLAY_AUTO_SKIP_TAIL,.PLAY_AUTO_STOP,.PLAY_NO_TAGS,.REC_BITRATE,
    .REC_BUF_LEN,.REC_CHANNELS,.REC_DANORM,.REC_ENC,.REC_EXCLUSIVE,.REC_GAIN,.REC_PATH,.REC_RATE,
    .REC_UNTIL,.UI_CURPATH,.UI_FILTER_HIDE,.UI_INFO_IN_TITLE,.UI_RECORD_HIDE,.UI_STATE_HIDE,
    .UI_SVC_NOTFN_DISABLE,.UI_THEME]

/-- The constant with the number `k`. -/
def Conf.of_id : Nat → Option Conf
  | 0 => none
  | k + 1 => Conf.all[k]?

/-- The names in the native code. -/
def setting_names : List Text :=
  ["codepage".toList,"conv_aac_q".toList,"conv_copy".toList,"conv_file_date_pres".toList,
    "conv_new_add_list".toList,"conv_opus_q".toList,"conv_outext".toList,"conv_vorbis_q".toList,
    "list_active".toList,"list_add_rm_on_next".toList,"list_curpos".toList,"list_pos".toList,
    "list_random".toList,"list_repeat".toList,"list_rm_on_err".toList,"list_rm_on_next".toList,
    "op_data_dir".toList,"op_file_delete".toList,"op_plist_save_dir".toList,"op_quick_move_dir".toList,
    "op_trash_dir_rel".toList,"play_auto_skip".toList,"play_auto_skip_tail".toList,"play_auto_stop".toList,
    "play_no_tags".toList,"rec_bitrate".toList,"rec_buf_len".toList,"rec_channels".toList,
    "rec_danorm".toList,"rec_enc".toList,"rec_exclusive".toList,"rec_gain".toList,"rec_path".toList,
    "rec_rate".toList,"rec_until".toList,"ui_curpath".toList,"ui_filter_hide".toList,
    "ui_info_in_title".toList,"ui_record_hide".toList,"ui_state_hide".toList,
    "ui_svc_notfn_disable".toList,"ui_theme".toList]

structure CoreSettings where
  svc_notification_disable : Bool := false
  trash_dir : Text := "Trash".toList
  file_del : Bool := false
  play_no_tags : Bool := false
  codepage : Text := "cp1252".toList
  pub_data_dir : Text := []
  plist_save_dir : Text := []
  quick_move_dir : Text := []
  rec_path : Text := []
  rec_enc : Text := "AAC-LC".toList
  rec_fmt : Text := "m4a".toList
  rec_channels : Int := 0
  rec_rate : Int := 0
  rec_bitrate : Int := 192
  rec_buf_len_ms : Int := 500
  rec_until_sec : Int := 3600
  rec_gain_db100 : Int := 0
  rec_danorm : Bool := false
  rec_exclusive : Bool := false
  conv_outext : Text := "m4a".toList
  conv_aac_quality : Int := 5
  conv_opus_quality : Int := 192
  conv_vorbis_quality : Int := 7
  conv_copy : Bool := false
  conv_file_date_preserve : Bool := false
  conv_new_add_list : Bool := false
deriving DecidableEq

/-- The settings in `Queue`. -/
structure QueueSettings where
  curpos : Int := -1
  q_active : Int := 0
  selected : Int := 0
  random : Bool := false
  repeat_ : Bool := false
  add_rm_on_next : Bool := false
  rm_on_next : Bool := false
  rm_on_err : Bool := false
  autoskip_percent : Int := 0
  autoskip_msec : Int := 0
  autoskip_tail_percent : Int := 0
  autoskip_tail_msec : Int := 0
  auto_stop_min : Int := 0
deriving DecidableEq

/-- The settings in `GUI`. -/
structure Gui where
  cur_path : Text := []
  state_hide : Bool := false
  filter_hide : Bool := false
  record_hide : Bool := false
  list_pos : Int := 0
  ainfo_in_title : Bool := false
  theme : Int := 0
deriving DecidableEq

structure Settings where
  setts : CoreSettings := {}
  qu : QueueSettings := {}
  gui : Gui := {}
deriving DecidableEq

/-! ### Writing -/

abbrev Row := Text × Text

def CoreSettings.conf_write (s : CoreSettings) : List Row :=
  [("ui_svc_notfn_disable".toList,decimal (bool_to_int s.svc_notification_disable)),
    ("play_no_tags".toList,decimal (bool_to_int s.play_no_tags)),
    ("codepage".toList,s.codepage),
    ("op_file_delete".toList,decimal (bool_to_int s.file_del)),
    ("op_data_dir".toList,s.pub_data_dir),
    ("op_plist_save_dir".toList,s.plist_save_dir),
    ("op_quick_move_dir".toList,s.quick_move_dir),
    ("op_trash_dir_rel".toList,s.trash_dir),
    ("rec_path".toList,s.rec_path),
    ("rec_enc".toList,s.rec_enc),
    ("rec_channels".toList,decimal s.rec_channels),
    ("rec_rate".toList,decimal s.rec_rate),
    ("rec_bitrate".toList,decimal s.rec_bitrate),
    ("rec_buf_len".toList,decimal s.rec_buf_len_ms),
    ("rec_until".toList,decimal s.rec_until_sec),
    ("rec_danorm".toList,decimal (bool_to_int s.rec_danorm)),
    ("rec_gain".toList,decimal s.rec_gain_db100),
    ("rec_exclusive".toList,decimal (bool_to_int s.rec_exclusive)),
    ("conv_outext".toList,s.conv_outext),
    ("conv_aac_q".toList,decimal s.conv_aac_quality),
    ("conv_opus_q".toList,decimal s.conv_opus_quality),
    ("conv_vorbis_q".toList,decimal s.conv_vorbis_quality),
    ("conv_copy".toList,decimal (bool_to_int s.conv_copy)),
    ("conv_file_date_pres".toList,decimal (bool_to_int s.conv_file_date_preserve)),
    ("conv_new_add_list".toList,decimal (bool_to_int s.conv_new_add_list))]

/-- `auto_skip_to_str()`, `auto_skip_tail_to_str()` -/
def skip_to_str (percent msec : Int) : Text :=
  if percent ≠ 0 then decimal percent ++ ['%'] else decimal (msec.tdiv 1000)

def QueueSettings.conf_write (q : QueueSettings) : List Row :=
  [("list_curpos".toList,decimal q.curpos),
    ("list_active".toList,decimal q.q_active),
    ("list_random".toList,decimal (bool_to_int q.random)),
    ("list_repeat".toList,decimal (bool_to_int q.repeat_)),
    ("list_add_rm_on_next".toList,decimal (bool_to_int q.add_rm_on_next)),
    ("list_rm_on_next".toList,decimal (bool_to_int q.rm_on_next)),
    ("list_rm_on_err".toList,decimal (bool_to_int q.rm_on_err)),
    ("play_auto_skip".toList,skip_to_str q.autoskip_percent q.autoskip_msec),
    ("play_auto_skip_tail".toList,skip_to_str q.autoskip_tail_percent q.autoskip_tail_msec),
    ("play_auto_stop".toList,decimal q.auto_stop_min)]

def Gui.conf_write (g : Gui) : List Row :=
  [("ui_curpath".toList,g.cur_path),
    ("ui_state_hide".toList,decimal (bool_to_int g.state_hide)),
    ("ui_filter_hide".toList,decimal (bool_to_int g.filter_hide)),
    ("ui_record_hide".toList,decimal (bool_to_int g.record_hide)),
    ("list_pos".toList,decimal g.list_pos),
    ("ui_info_in_title".toList,decimal (bool_to_int g.ainfo_in_title)),
    ("ui_theme".toList,decimal g.theme)]

def Settings.rows (s : Settings) : List Row := s.setts.conf_write ++ s.qu.conf_write ++ s.gui.conf_write

/-- The text that `saveconf()` makes. -/
def Settings.text (s : Settings) : Text := s.rows.flatMap (KeyLines.line '\n' ' ')

/-- `confWrite()`: the file is written under another name and renamed. -/
def confWrite (written renamed : Bool) (file : Option Text) (data : Text) : Option Text :=
  if written && renamed then some data else file

/-! ### Reading -/

/-- What `confRead()` returns to Java. -/
inductive Kv where
  | null
  -- `ArrayIndexOutOfBoundsException`
  | thrown
  | entries (l : List (Nat × Text))
deriving DecidableEq

/-- A line with a known name; the value is a text that ends with a zero. -/
def entry (r : Row) : Option (Nat × Text) :=
  (setting_names.findIdx? (· = r.1)).map fun i => (i + 1,r.2.takeWhile (· ≠ '\x00'))

/-- The bytes of a text in UTF-8. -/
def size (s : Text) : Nat := (s.map Char.utf8Size).sum

/-- The array has as many elements as there are ends of lines. -/
def confRead : Option Text → Kv
  | none => .null
  | some d =>
    if 1024 * 1024 < size d then .null
    else
      let l := (KeyLines.rows '\n' ' ' d).filterMap entry
      if d.count '\n' < l.length then .thrown else .entries l

def CoreSettings.set_codepage (s : CoreSettings) (val : Text) : CoreSettings :=
  {s with codepage := if val = "cp1251".toList ∨ val = "cp1252".toList then val else "cp1252".toList}

def CoreSettings.conf_process1 (s : CoreSettings) (k : Option Conf) (v : Text) : Option CoreSettings :=
  match k with
  | some .UI_SVC_NOTFN_DISABLE => some {s with svc_notification_disable := str_to_bool v}
  | some .OP_FILE_DELETE => some {s with file_del := str_to_bool v}
  | some .OP_DATA_DIR => some {s with pub_data_dir := v}
  | some .OP_PLIST_SAVE_DIR => some {s with plist_save_dir := v}
  | some .OP_QUICK_MOVE_DIR => some {s with quick_move_dir := v}
  | some .OP_TRASH_DIR_REL => some {s with trash_dir := v}
  | some .PLAY_NO_TAGS => some {s with play_no_tags := str_to_bool v}
  | some .CODEPAGE => some (s.set_codepage v)
  | some .REC_PATH => some {s with rec_path := v}
  | some .REC_ENC => some {s with rec_enc := v}
  | some .REC_CHANNELS => some {s with rec_channels := str_to_uint digit v 0}
  | some .REC_RATE => some {s with rec_rate := str_to_uint digit v 0}
  | some .REC_BITRATE => some {s with rec_bitrate := str_to_uint digit v s.rec_bitrate}
  | some .REC_BUF_LEN => some {s with rec_buf_len_ms := str_to_uint digit v s.rec_buf_len_ms}
  | some .REC_DANORM => some {s with rec_danorm := str_to_bool v}
  | some .REC_EXCLUSIVE => some {s with rec_exclusive := str_to_bool v}
  | some .REC_UNTIL => some {s with rec_until_sec := str_to_uint digit v s.rec_until_sec}
  | some .REC_GAIN => some {s with rec_gain_db100 := str_to_int digit v s.rec_gain_db100}
  | some .CONV_OUTEXT => some {s with conv_outext := v}
  | some .CONV_AAC_Q => some {s with conv_aac_quality := str_to_uint digit v s.conv_aac_quality}
  | some .CONV_OPUS_Q => some {s with conv_opus_quality := str_to_uint digit v s.conv_opus_quality}
  | some .CONV_VORBIS_Q => some {s with conv_vorbis_quality := str_to_uint digit v s.conv_vorbis_quality}
  | some .CONV_COPY => some {s with conv_copy := str_to_bool v}
  | some .CONV_FILE_DATE_PRES => some {s with conv_file_date_preserve := str_to_bool v}
  | some .CONV_NEW_ADD_LIST => some {s with conv_new_add_list := str_to_bool v}
  | _ => none

/-- `auto_skip_convert()`: a percentage or milliseconds. -/
def auto_skip_convert (s : Text) : Int × Int :=
  if s.getLast? = some '%' then
    let p := str_to_uint digit s.dropLast 0
    (if 100 ≤ p then 0 else p,0)
  else (0,wrap (str_to_uint digit s 0 * 1000))

def QueueSettings.conf_process1 (q : QueueSettings) (k : Option Conf) (v : Text) : Option QueueSettings :=
  match k with
  | some .LIST_CURPOS => some {q with curpos := str_to_uint digit v 0}
  | some .LIST_ACTIVE => some {q with q_active := str_to_uint digit v 0, selected := str_to_uint digit v 0}
  | some .LIST_RANDOM => some {q with random := str_to_bool v}
  | some .LIST_REPEAT => some {q with repeat_ := str_to_bool v}
  | some .LIST_ADD_RM_ON_NEXT => some {q with add_rm_on_next := str_to_bool v}
  | some .LIST_RM_ON_NEXT => some {q with rm_on_next := str_to_bool v}
  | some .LIST_RM_ON_ERR => some {q with rm_on_err := str_to_bool v}
  | some .PLAY_AUTO_SKIP => some { q with
      autoskip_percent := (auto_skip_convert digit v).1
      autoskip_msec := (auto_skip_convert digit v).2 }
  | some .PLAY_AUTO_SKIP_TAIL => some { q with
      autoskip_tail_percent := (auto_skip_convert digit v).1
      autoskip_tail_msec := (auto_skip_convert digit v).2 }
  | some .PLAY_AUTO_STOP => some {q with auto_stop_min := str_to_uint digit v 0}
  | _ => none

def Gui.conf_process1 (g : Gui) (k : Option Conf) (v : Text) : Option Gui :=
  match k with
  | some .UI_CURPATH => some {g with cur_path := v}
  | some .UI_STATE_HIDE => some {g with state_hide := str_to_bool v}
  | some .UI_FILTER_HIDE => some {g with filter_hide := str_to_bool v}
  | some .UI_RECORD_HIDE => some {g with record_hide := str_to_bool v}
  | some .LIST_POS => some {g with list_pos := str_to_uint digit v 0}
  | some .UI_INFO_IN_TITLE => some {g with ainfo_in_title := str_to_bool v}
  | some .UI_THEME => some {g with theme := str_to_uint digit v 0}
  | _ => none

def CoreSettings.normalize (s : CoreSettings) : CoreSettings :=
  let enc :=
    if s.rec_enc = "AAC-LC".toList ∨ s.rec_enc = "AAC-HE".toList ∨ s.rec_enc = "AAC-HEv2".toList then
      (s.rec_enc,"m4a".toList)
    else if s.rec_enc = "FLAC".toList then (s.rec_enc,"flac".toList)
    else if s.rec_enc = "Opus".toList then (s.rec_enc,"opus".toList)
    else ("AAC-LC".toList,"m4a".toList)
  { s with
    rec_enc := enc.1
    rec_fmt := enc.2
    rec_bitrate := if s.rec_bitrate ≤ 0 then 192 else s.rec_bitrate
    rec_buf_len_ms := if s.rec_buf_len_ms ≤ 0 then 500 else s.rec_buf_len_ms
    rec_until_sec := if s.rec_until_sec < 0 then 3600 else s.rec_until_sec }

def QueueSettings.conf_normalize (q : QueueSettings) : QueueSettings :=
  {q with auto_stop_min := if q.auto_stop_min = 0 then 60 else q.auto_stop_min}

/-- The body of the loop in `loadconf()`, with the constant that the number stands for. -/
def Settings.process (s : Settings) (k : Option Conf) (v : Text) : Settings :=
  match s.setts.conf_process1 digit k v with
  | some c => {s with setts := c}
  | none =>
    match s.qu.conf_process1 digit k v with
    | some q => {s with qu := q}
    | none =>
      match s.gui.conf_process1 digit k v with
      | some g => {s with gui := g}
      | none => s

def Settings.take (s : Settings) (e : Nat × Text) : Settings := s.process digit (Conf.of_id e.1) e.2

def Settings.normalize (s : Settings) : Settings :=
  {s with setts := s.setts.normalize, qu := s.qu.conf_normalize}

/-- `loadconf()`; without a result, Java throws. -/
def loadconf (s : Settings) (file : Option Text) : Option Settings :=
  match confRead file with
  | .null => some s
  | .thrown => none
  | .entries l => some (l.foldl (Settings.take digit) s).normalize

/-! ### Numbers -/

variable {digit : Digit}

/-- `Character.digit()` knows the digits of ASCII. -/
def Ascii (digit : Digit) : Prop := ∀ n < 10,digit (Nat.digitChar n) = some n

theorem foldlM_toDigits (h : Ascii digit) (n : Nat) :
    (Nat.toDigits 10 n).foldlM (add_digit digit 10) 0 = some n := by
  induction n using Nat.strongRecOn with
  | ind n ih =>
    by_cases hn : n < 10
    · rw [Nat.toDigits_of_lt_base hn]
      simp [add_digit,h n hn,hn]
    · have hd : n % 10 < 10 := Nat.mod_lt n (by decide)
      rw [Nat.toDigits_of_base_le (by decide) (by omega),List.foldlM_append,ih (n / 10) (by omega)]
      simp only [List.foldlM_cons,List.foldlM_nil,Option.bind_eq_bind,Option.bind_some,add_digit,h _ hd,if_pos hd]
      simp only [Option.pure_def,Option.some.injEq]
      omega

/-- The first digit of a number is not `0`, but for 0. -/
theorem toDigits_head {n : Nat} (hn : 0 < n) :
    ∃ d s,1 ≤ d ∧ d < 10 ∧ Nat.toDigits 10 n = Nat.digitChar d :: s := by
  induction n using Nat.strongRecOn with
  | ind n ih =>
    by_cases hlt : n < 10
    · exact ⟨n,[],hn,hlt,Nat.toDigits_of_lt_base hlt⟩
    · obtain ⟨d,s,h1,h2,hs⟩ := ih (n / 10) (by omega) (by omega)
      refine ⟨d,s ++ [Nat.digitChar (n % 10)],h1,h2,?_⟩
      rw [Nat.toDigits_of_base_le (by decide) (by omega),hs]
      rfl

/-- The characters that `decode()` and `unsigned()` look at are none of a number's first digits. -/
theorem digitChar_ne {d : Nat} (h1 : 1 ≤ d) (h2 : d < 10) : Nat.digitChar d ≠ '-' ∧ Nat.digitChar d ≠ '+' ∧
    Nat.digitChar d ≠ '0' ∧ Nat.digitChar d ≠ '#' := by
  interval_cases d <;> decide

theorem toDigits_sign (n : Nat) :
    (Nat.toDigits 10 n).head? ≠ some '-' ∧ (Nat.toDigits 10 n).head? ≠ some '+' := by
  rcases Nat.eq_zero_or_pos n with rfl | hn
  · rw [Nat.toDigits_zero]
    decide
  · obtain ⟨d,s,h1,h2,hs⟩ := toDigits_head hn
    have hd := digitChar_ne h1 h2
    rw [hs]
    simp [hd.1,hd.2.1]

theorem digits_toDigits (h : Ascii digit) (n : Nat) : digits digit 10 (Nat.toDigits 10 n) = some n := by
  have hne : Nat.toDigits 10 n ≠ [] := Nat.toDigits_ne_nil
  rw [digits,if_neg (by simp [hne,toDigits_sign n])]
  exact foldlM_toDigits h n

theorem unsigned_cons {c : Char} (hzero : c ≠ '0') (hhash : c ≠ '#') (s : Text) :
    unsigned digit (c :: s) = digits digit 10 (c :: s) := by
  unfold unsigned
  split
  · exact absurd (List.cons.inj ‹_›).1 hzero
  · exact absurd (List.cons.inj ‹_›).1 hzero
  · exact absurd (List.cons.inj ‹_›).1 hhash
  · exact absurd (List.cons.inj ‹_›).1 hzero
  · rfl

theorem unsigned_toDigits (h : Ascii digit) (n : Nat) : unsigned digit (Nat.toDigits 10 n) = some n := by
  have hd := digits_toDigits h n
  rcases Nat.eq_zero_or_pos n with rfl | hn
  · rw [Nat.toDigits_zero] at hd ⊢
    exact hd
  · obtain ⟨d,s,h1,h2,hs⟩ := toDigits_head hn
    have hc := digitChar_ne h1 h2
    rw [hs] at hd ⊢
    rw [unsigned_cons hc.2.2.1 hc.2.2.2,hd]

theorem decode_unsigned {s : Text} (hminus : s.head? ≠ some '-') (hplus : s.head? ≠ some '+') :
    decode digit s = (unsigned digit s).bind fun n => in_range n := by
  unfold decode
  split
  · exact absurd rfl hminus
  · exact absurd rfl hplus
  · rfl

theorem decode_decimal (h : Ascii digit) {i : Int} (hi : -2 ^ 31 ≤ i ∧ i < 2 ^ 31) :
    decode digit (decimal i) = some i := by
  have hr : in_range i = some i := if_pos hi
  cases i with
  | ofNat n =>
    change decode digit (Nat.toDigits 10 n) = _
    rw [decode_unsigned (toDigits_sign n).1 (toDigits_sign n).2,unsigned_toDigits h n,Option.bind_some]
    exact hr
  | negSucc n =>
    change (unsigned digit (Nat.toDigits 10 (n + 1))).bind (fun n => in_range (-n)) = _
    rw [unsigned_toDigits h (n + 1),Option.bind_some]
    exact hr

theorem str_to_uint_decimal (h : Ascii digit) {i : Int} (hi : -2 ^ 31 ≤ i ∧ i < 2 ^ 31) (d : Int) :
    str_to_uint digit (decimal i) d = if 0 ≤ i then i else d := by
  rw [str_to_uint,decode_decimal h hi]

theorem str_to_int_decimal (h : Ascii digit) {i : Int} (hi : -2 ^ 31 ≤ i ∧ i < 2 ^ 31) (d : Int) :
    str_to_int digit (decimal i) d = i := by
  rw [str_to_int,decode_decimal h hi]
  rfl

theorem str_to_bool_decimal (b : Bool) : str_to_bool (decimal (bool_to_int b)) = b := by
  cases b <;> decide

theorem decimal_digits {i : Int} {c : Char} (hc : c ∈ decimal i) : c = '-' ∨ c.isDigit := by
  cases i with
  | ofNat n => exact Or.inr (Nat.isDigit_of_mem_toDigits (by decide) (by decide) hc)
  | negSucc n =>
    rcases List.mem_cons.mp hc with rfl | hc
    · exact Or.inl rfl
    · exact Or.inr (Nat.isDigit_of_mem_toDigits (by decide) (by decide) hc)

theorem decimal_avoids {c : Char} (hminus : c ≠ '-') (hdigit : c.isDigit = false) (i : Int) : c ∉ decimal i := by
  intro hc
  rcases decimal_digits hc with rfl | h
  · exact hminus rfl
  · simp [hdigit] at h

/-! ### Lines -/

/-- The text has no end of a line and no zero. -/
def Plain (s : Text) : Prop := '\n' ∉ s ∧ '\x00' ∉ s

instance (s : Text) : Decidable (Plain s) := inferInstanceAs (Decidable (_ ∧ _))

theorem plain_decimal (i : Int) : Plain (decimal i) :=
  ⟨decimal_avoids (by decide) (by decide) i,decimal_avoids (by decide) (by decide) i⟩

theorem plain_skip (percent msec : Int) : Plain (skip_to_str percent msec) := by
  have hp := plain_decimal percent
  unfold skip_to_str
  split
  · exact ⟨by simp [hp.1],by simp [hp.2]⟩
  · exact plain_decimal _

/-- The places of the names in the table, in the order of the file. -/
def places : List Nat :=
  [40,24,0,17,16,18,19,20,32,29,27,33,25,26,34,28,31,30,6,1,5,7,2,3,4,10,8,12,13,9,15,14,21,22,23,
    35,39,36,38,11,37,41]

-- One evaluation for the three facts, as the names are converted to characters each time.
theorem names_facts : setting_names.IsChain (· < ·) ∧
    places.map (setting_names[·]?) = ({} : Settings).rows.map (fun r => some r.1) ∧
    ∀ k ∈ ({} : Settings).rows.map (·.1),' ' ∉ k ∧ '\n' ∉ k := by
  decide +kernel

theorem setting_names_sorted : setting_names.Pairwise (· < ·) := List.isChain_iff_pairwise.mp names_facts.1

theorem entry_of_name {i : Nat} {r : Row} (hi : setting_names[i]? = some r.1) (hv : '\x00' ∉ r.2) :
    entry r = some (i + 1,r.2) := by
  obtain ⟨hlt,hname⟩ := List.getElem?_eq_some_iff.mp hi
  have hfind : setting_names.findIdx? (· = r.1) = some i := by
    refine List.findIdx?_eq_some_iff_getElem.mpr ⟨hlt,by simpa using hname,?_⟩
    intro j hj
    have hord := List.pairwise_iff_getElem.mp setting_names_sorted j i (hj.trans hlt) hlt hj
    intro he
    rw [of_decide_eq_true he,← hname] at hord
    exact List.lt_irrefl _ hord
  have hcut : r.2.takeWhile (· ≠ '\x00') = r.2 := by
    apply List.takeWhile_eq_self_iff.mpr
    intro c hc
    exact decide_eq_true fun he => hv (he ▸ hc)
  rw [entry,hfind,hcut]
  rfl

def numbered (places : List Nat) (rows : List Row) : List (Nat × Text) :=
  List.zipWith (fun i r => (i + 1,r.2)) places rows

theorem filterMap_entry {places : List Nat} {rows : List Row}
    (hname : places.map (setting_names[·]?) = rows.map fun r => some r.1) (hval : ∀ r ∈ rows,'\x00' ∉ r.2) :
    rows.filterMap entry = numbered places rows := by
  induction rows generalizing places with
  | nil => simp [numbered]
  | cons r rows ih =>
    cases places with
    | nil => simp at hname
    | cons i places =>
      have hhead := List.cons.inj hname
      rw [List.filterMap_cons_some (entry_of_name hhead.1 (hval r List.mem_cons_self)),
        ih hhead.2 fun x hx => hval x (List.mem_cons_of_mem r hx)]
      rfl

/-! ### What comes back -/

/-- A number that is written and read as `str_to_uint()` does, with the default `d`. -/
def uint (i d : Int) : Int := if 0 ≤ i then i else d

def restored_skip (percent msec : Int) : Int × Int :=
  if percent ≠ 0 then (if 100 ≤ uint percent 0 then 0 else uint percent 0,0)
  else (0,wrap (uint (msec.tdiv 1000) 0 * 1000))

/-- The settings `s` after they were written, and read over the settings `s₀`. -/
def CoreSettings.restored (s₀ s : CoreSettings) : CoreSettings :=
  CoreSettings.normalize { s with
    codepage := (s₀.set_codepage s.codepage).codepage
    rec_channels := uint s.rec_channels 0
    rec_rate := uint s.rec_rate 0
    rec_bitrate := uint s.rec_bitrate s₀.rec_bitrate
    rec_buf_len_ms := uint s.rec_buf_len_ms s₀.rec_buf_len_ms
    rec_until_sec := uint s.rec_until_sec s₀.rec_until_sec
    conv_aac_quality := uint s.conv_aac_quality s₀.conv_aac_quality
    conv_opus_quality := uint s.conv_opus_quality s₀.conv_opus_quality
    conv_vorbis_quality := uint s.conv_vorbis_quality s₀.conv_vorbis_quality }

def QueueSettings.restored (q : QueueSettings) : QueueSettings :=
  QueueSettings.conf_normalize { q with
    curpos := uint q.curpos 0
    q_active := uint q.q_active 0
    selected := uint q.q_active 0
    autoskip_percent := (restored_skip q.autoskip_percent q.autoskip_msec).1
    autoskip_msec := (restored_skip q.autoskip_percent q.autoskip_msec).2
    autoskip_tail_percent := (restored_skip q.autoskip_tail_percent q.autoskip_tail_msec).1
    autoskip_tail_msec := (restored_skip q.autoskip_tail_percent q.autoskip_tail_msec).2
    auto_stop_min := uint q.auto_stop_min 0 }

def Gui.restored (g : Gui) : Gui := {g with list_pos := uint g.list_pos 0, theme := uint g.theme 0}

def Settings.restored (s₀ s : Settings) : Settings :=
  ⟨s₀.setts.restored s.setts,s.qu.restored,s.gui.restored⟩

/-- The numbers are those of Java. -/
def Ints (is : List Int) : Prop := ∀ i ∈ is,-2 ^ 31 ≤ i ∧ i < 2 ^ 31

instance (is : List Int) : Decidable (Ints is) := inferInstanceAs (Decidable (∀ i ∈ is,_ ∧ _))

def CoreSettings.ints (s : CoreSettings) : List Int :=
  [s.rec_channels,s.rec_rate,s.rec_bitrate,s.rec_buf_len_ms,s.rec_until_sec,s.rec_gain_db100,s.conv_aac_quality,
    s.conv_opus_quality,s.conv_vorbis_quality]

def QueueSettings.ints (q : QueueSettings) : List Int :=
  [q.curpos,q.q_active,q.autoskip_percent,q.autoskip_msec,q.autoskip_tail_percent,q.autoskip_tail_msec,
    q.auto_stop_min]

def Gui.ints (g : Gui) : List Int := [g.list_pos,g.theme]

def CoreSettings.texts (s : CoreSettings) : List Text :=
  [s.codepage,s.pub_data_dir,s.plist_save_dir,s.quick_move_dir,s.trash_dir,s.rec_path,s.rec_enc,s.conv_outext]

/-- No text of the settings has an end of a line or a zero. -/
structure Fits (s : Settings) : Prop where
  setts : Ints s.setts.ints
  qu : Ints s.qu.ints
  gui : Ints s.gui.ints
  texts : ∀ x ∈ s.setts.texts,Plain x
  path : Plain s.gui.cur_path

/-- The constants of the names in the file. -/
def core_constants : List Conf :=
  [.UI_SVC_NOTFN_DISABLE,.PLAY_NO_TAGS,.CODEPAGE,.OP_FILE_DELETE,.OP_DATA_DIR,.OP_PLIST_SAVE_DIR,
    .OP_QUICK_MOVE_DIR,.OP_TRASH_DIR_REL,.REC_PATH,.REC_ENC,.REC_CHANNELS,.REC_RATE,.REC_BITRATE,.REC_BUF_LEN,
    .REC_UNTIL,.REC_DANORM,.REC_GAIN,.REC_EXCLUSIVE,.CONV_OUTEXT,.CONV_AAC_Q,.CONV_OPUS_Q,.CONV_VORBIS_Q,
    .CONV_COPY,.CONV_FILE_DATE_PRES,.CONV_NEW_ADD_LIST]

def queue_constants : List Conf :=
  [.LIST_CURPOS,.LIST_ACTIVE,.LIST_RANDOM,.LIST_REPEAT,.LIST_ADD_RM_ON_NEXT,.LIST_RM_ON_NEXT,.LIST_RM_ON_ERR,
    .PLAY_AUTO_SKIP,.PLAY_AUTO_SKIP_TAIL,.PLAY_AUTO_STOP]

def gui_constants : List Conf :=
  [.UI_CURPATH,.UI_STATE_HIDE,.UI_FILTER_HIDE,.UI_RECORD_HIDE,.LIST_POS,.UI_INFO_IN_TITLE,.UI_THEME]

theorem of_id_places : places.map (fun i => Conf.of_id (i + 1)) =
    (core_constants ++ queue_constants ++ gui_constants).map some := by decide +kernel

/-- The values of the constants, one after another. -/
def Settings.process_all (digit : Digit) (s : Settings) (ks : List Conf) (rows : List Row) : Settings :=
  (List.zip ks rows).foldl (fun s x => s.process digit (some x.1) x.2.2) s

theorem fold_numbered {places : List Nat} {ks : List Conf} (rows : List Row) (s : Settings)
    (h : places.map (fun i => Conf.of_id (i + 1)) = ks.map some) :
    (numbered places rows).foldl (Settings.take digit) s = s.process_all digit ks rows := by
  induction places generalizing ks rows s with
  | nil =>
    cases ks with
    | nil => rfl
    | cons k ks => simp at h
  | cons i places ih =>
    cases ks with
    | nil => simp at h
    | cons k ks =>
      have hhead := List.cons.inj h
      cases rows with
      | nil => rfl
      | cons r rows =>
        have hr : s.take digit (i + 1,r.2) = s.process digit (some k) r.2 :=
          congrArg (fun k => s.process digit k r.2) hhead.1
        simp only [numbered,List.zipWith_cons_cons,List.foldl_cons,hr]
        exact ih rows (s.process digit (some k) r.2) hhead.2

theorem process_append {ks ks' : List Conf} {rows rows' : List Row} (s : Settings) (h : ks.length = rows.length) :
    s.process_all digit (ks ++ ks') (rows ++ rows') =
      (s.process_all digit ks rows).process_all digit ks' rows' := by
  rw [Settings.process_all,List.zip_append h,List.foldl_append]
  rfl

/-- What is read from the lines, over the settings `s₀`. -/
def CoreSettings.taken (digit : Digit) (s₀ : CoreSettings) (s : CoreSettings) : CoreSettings :=
  { svc_notification_disable := str_to_bool (decimal (bool_to_int s.svc_notification_disable))
    trash_dir := s.trash_dir
    file_del := str_to_bool (decimal (bool_to_int s.file_del))
    play_no_tags := str_to_bool (decimal (bool_to_int s.play_no_tags))
    codepage := (s₀.set_codepage s.codepage).codepage
    pub_data_dir := s.pub_data_dir
    plist_save_dir := s.plist_save_dir
    quick_move_dir := s.quick_move_dir
    rec_path := s.rec_path
    rec_enc := s.rec_enc
    rec_fmt := s₀.rec_fmt
    rec_channels := str_to_uint digit (decimal s.rec_channels) 0
    rec_rate := str_to_uint digit (decimal s.rec_rate) 0
    rec_bitrate := str_to_uint digit (decimal s.rec_bitrate) s₀.rec_bitrate
    rec_buf_len_ms := str_to_uint digit (decimal s.rec_buf_len_ms) s₀.rec_buf_len_ms
    rec_until_sec := str_to_uint digit (decimal s.rec_until_sec) s₀.rec_until_sec
    rec_gain_db100 := str_to_int digit (decimal s.rec_gain_db100) s₀.rec_gain_db100
    rec_danorm := str_to_bool (decimal (bool_to_int s.rec_danorm))
    rec_exclusive := str_to_bool (decimal (bool_to_int s.rec_exclusive))
    conv_outext := s.conv_outext
    conv_aac_quality := str_to_uint digit (decimal s.conv_aac_quality) s₀.conv_aac_quality
    conv_opus_quality := str_to_uint digit (decimal s.conv_opus_quality) s₀.conv_opus_quality
    conv_vorbis_quality := str_to_uint digit (decimal s.conv_vorbis_quality) s₀.conv_vorbis_quality
    conv_copy := str_to_bool (decimal (bool_to_int s.conv_copy))
    conv_file_date_preserve := str_to_bool (decimal (bool_to_int s.conv_file_date_preserve))
    conv_new_add_list := str_to_bool (decimal (bool_to_int s.conv_new_add_list)) }

theorem CoreSettings.fold (s₀ : Settings) (s : CoreSettings) : s₀.process_all digit core_constants s.conf_write =
    {s₀ with setts := s₀.setts.taken digit s} := by
  simp only [Settings.process_all,core_constants,CoreSettings.conf_write,List.zip_cons_cons,
    List.zip_nil_left,List.foldl_cons,List.foldl_nil,Settings.process,CoreSettings.conf_process1,
    CoreSettings.set_codepage,CoreSettings.taken]

/-- What is read from the lines. -/
def QueueSettings.taken (digit : Digit) (q : QueueSettings) : QueueSettings :=
  { curpos := str_to_uint digit (decimal q.curpos) 0
    q_active := str_to_uint digit (decimal q.q_active) 0
    selected := str_to_uint digit (decimal q.q_active) 0
    random := str_to_bool (decimal (bool_to_int q.random))
    repeat_ := str_to_bool (decimal (bool_to_int q.repeat_))
    add_rm_on_next := str_to_bool (decimal (bool_to_int q.add_rm_on_next))
    rm_on_next := str_to_bool (decimal (bool_to_int q.rm_on_next))
    rm_on_err := str_to_bool (decimal (bool_to_int q.rm_on_err))
    autoskip_percent := (auto_skip_convert digit (skip_to_str q.autoskip_percent q.autoskip_msec)).1
    autoskip_msec := (auto_skip_convert digit (skip_to_str q.autoskip_percent q.autoskip_msec)).2
    autoskip_tail_percent :=
      (auto_skip_convert digit (skip_to_str q.autoskip_tail_percent q.autoskip_tail_msec)).1
    autoskip_tail_msec :=
      (auto_skip_convert digit (skip_to_str q.autoskip_tail_percent q.autoskip_tail_msec)).2
    auto_stop_min := str_to_uint digit (decimal q.auto_stop_min) 0 }

theorem QueueSettings.fold (s₀ : Settings) (q : QueueSettings) :
    s₀.process_all digit queue_constants q.conf_write = {s₀ with qu := q.taken digit} := by
  simp only [Settings.process_all,queue_constants,QueueSettings.conf_write,List.zip_cons_cons,
    List.zip_nil_left,List.foldl_cons,List.foldl_nil,Settings.process,CoreSettings.conf_process1,
    QueueSettings.conf_process1,QueueSettings.taken]

/-- What is read from the lines. -/
def Gui.taken (digit : Digit) (g : Gui) : Gui :=
  { cur_path := g.cur_path
    state_hide := str_to_bool (decimal (bool_to_int g.state_hide))
    filter_hide := str_to_bool (decimal (bool_to_int g.filter_hide))
    record_hide := str_to_bool (decimal (bool_to_int g.record_hide))
    list_pos := str_to_uint digit (decimal g.list_pos) 0
    ainfo_in_title := str_to_bool (decimal (bool_to_int g.ainfo_in_title))
    theme := str_to_uint digit (decimal g.theme) 0 }

theorem Gui.fold (s₀ : Settings) (g : Gui) : s₀.process_all digit gui_constants g.conf_write =
    {s₀ with gui := g.taken digit} := by
  simp only [Settings.process_all,gui_constants,Gui.conf_write,List.zip_cons_cons,
    List.zip_nil_left,List.foldl_cons,List.foldl_nil,Settings.process,CoreSettings.conf_process1,
    QueueSettings.conf_process1,Gui.conf_process1,Gui.taken]

theorem fold_rows (s₀ s : Settings) : (numbered places s.rows).foldl (Settings.take digit) s₀ =
    ((s₀.process_all digit core_constants s.setts.conf_write).process_all digit queue_constants
      s.qu.conf_write).process_all digit gui_constants s.gui.conf_write := by
  rw [fold_numbered s.rows s₀ of_id_places,Settings.rows,process_append s₀ rfl,process_append s₀ rfl]

theorem skip_percent (h : Ascii digit) {i : Int} (hi : -2 ^ 31 ≤ i ∧ i < 2 ^ 31) :
    auto_skip_convert digit (decimal i ++ ['%']) = (if 100 ≤ uint i 0 then 0 else uint i 0,0) := by
  simp only [auto_skip_convert,List.getLast?_concat,if_true,List.dropLast_concat,str_to_uint_decimal h hi]
  rfl

theorem skip_seconds (h : Ascii digit) {i : Int} (hi : -2 ^ 31 ≤ i ∧ i < 2 ^ 31) :
    auto_skip_convert digit (decimal i) = (0,wrap (uint i 0 * 1000)) := by
  have hlast : (decimal i).getLast? ≠ some '%' := fun hl =>
    decimal_avoids (by decide) (by decide) i (List.mem_of_getLast? hl)
  rw [auto_skip_convert,if_neg hlast,str_to_uint_decimal h hi]
  rfl

theorem auto_skip_restored (h : Ascii digit) {percent msec : Int} (hp : -2 ^ 31 ≤ percent ∧ percent < 2 ^ 31)
    (hm : -2 ^ 31 ≤ msec ∧ msec < 2 ^ 31) :
    auto_skip_convert digit (skip_to_str percent msec) = restored_skip percent msec := by
  have hdiv : -2 ^ 31 ≤ msec.tdiv 1000 ∧ msec.tdiv 1000 < 2 ^ 31 := by
    have hsign : Int.sign 1000 = 1 := rfl
    rw [Int.tdiv_eq_ediv]
    split <;> omega
  unfold skip_to_str restored_skip
  by_cases hz : percent ≠ 0
  · rw [if_pos hz,if_pos hz,skip_percent h hp]
  · rw [if_neg hz,if_neg hz,skip_seconds h hdiv]

theorem Ints.read (h : Ascii digit) {is : List Int} (hi : Ints is) :
    ∀ i ∈ is,∀ d,str_to_uint digit (decimal i) d = uint i d :=
  fun i hmem d => str_to_uint_decimal h (hi i hmem) d

theorem CoreSettings.taken_restored (h : Ascii digit) (s₀ : CoreSettings) {s : CoreSettings} (hs : Ints s.ints) :
    (s₀.taken digit s).normalize = s₀.restored s := by
  have hu := hs.read h
  have hgain := str_to_int_decimal h (hs s.rec_gain_db100 (by simp [ints]))
  simp only [ints,List.forall_mem_cons] at hu
  simp only [taken,hu,hgain,str_to_bool_decimal]
  rfl

theorem QueueSettings.taken_restored (h : Ascii digit) {q : QueueSettings} (hq : Ints q.ints) :
    (q.taken digit).conf_normalize = q.restored := by
  have hu := hq.read h
  have hskip := auto_skip_restored h (hq q.autoskip_percent (by simp [ints])) (hq q.autoskip_msec (by simp [ints]))
  have htail := auto_skip_restored h (hq q.autoskip_tail_percent (by simp [ints]))
    (hq q.autoskip_tail_msec (by simp [ints]))
  simp only [ints,List.forall_mem_cons] at hu
  simp only [taken,hu,hskip,htail,str_to_bool_decimal]
  rfl

theorem Gui.taken_restored (h : Ascii digit) {g : Gui} (hg : Ints g.ints) : g.taken digit = g.restored := by
  have hu := hg.read h
  simp only [ints,List.forall_mem_cons] at hu
  simp only [taken,hu,str_to_bool_decimal]
  rfl

theorem Fits.values {s : Settings} (h : Fits s) : ∀ r ∈ s.rows,Plain r.2 := by
  have ht := h.texts
  simp only [CoreSettings.texts,List.forall_mem_cons] at ht
  simp only [Settings.rows,CoreSettings.conf_write,QueueSettings.conf_write,Gui.conf_write,
    List.forall_mem_append,List.forall_mem_cons]
  simp [plain_decimal,plain_skip,h.path,ht]

theorem names_plain (s : Settings) : ∀ r ∈ s.rows,' ' ∉ r.1 ∧ '\n' ∉ r.1 := by
  intro r hr
  have hnames : s.rows.map (·.1) = ({} : Settings).rows.map (·.1) := rfl
  exact names_facts.2.2 r.1 (hnames ▸ List.mem_map_of_mem hr)

theorem Fits.confRead {s : Settings} (h : Fits s) (hsize : size s.text ≤ 1024 * 1024) :
    confRead (some s.text) = .entries (numbered places s.rows) := by
  have hsep : ∀ r ∈ s.rows,' ' ∉ r.1 := fun r hr => (names_plain s r hr).1
  have hkey : ∀ r ∈ s.rows,'\n' ∉ r.1 := fun r hr => (names_plain s r hr).2
  have hval : ∀ r ∈ s.rows,'\n' ∉ r.2 := fun r hr => (h.values r hr).1
  have hrows : KeyLines.rows '\n' ' ' s.text = s.rows := KeyLines.rows_lines (by decide) s.rows hsep hkey hval
  have hcount : s.text.count '\n' = s.rows.length := KeyLines.count_lines (by decide) s.rows hkey hval
  have hentries : s.rows.filterMap entry = numbered places s.rows :=
    filterMap_entry names_facts.2.1 fun r hr => (h.values r hr).2
  have hlen : s.rows.length = places.length := rfl
  have hnum : (numbered places s.rows).length = s.rows.length := by simp [numbered,hlen]
  simp only [UserConf.confRead,hrows,hentries,hcount,hnum,lt_irrefl,if_false,if_neg (not_lt.mpr hsize)]

/-- A file of more than 1 MiB is not read. -/
def Settings.reread (s₀ s : Settings) : Settings := if size s.text ≤ 1024 * 1024 then s₀.restored s else s₀

theorem load_text (h : Ascii digit) (s₀ : Settings) {s : Settings} (hs : Fits s) :
    loadconf digit s₀ (some s.text) = some (s₀.reread s) := by
  unfold Settings.reread
  split
  · have hcore := CoreSettings.taken_restored h s₀.setts hs.setts
    have hqueue := QueueSettings.taken_restored h hs.qu
    have hgui := Gui.taken_restored h hs.gui
    rw [loadconf,hs.confRead ‹_›]
    simp only [fold_rows,CoreSettings.fold,QueueSettings.fold,Gui.fold]
    simp only [Settings.normalize,Settings.restored,hcore,hqueue,hgui]
  · have hbig : 1024 * 1024 < size s.text := not_le.mp ‹_›
    rw [loadconf,UserConf.confRead,if_pos hbig]

theorem zero_range : -2 ^ 31 ≤ (0 : Int) ∧ (0 : Int) < 2 ^ 31 := by decide

theorem uint_range {i d : Int} (hi : -2 ^ 31 ≤ i ∧ i < 2 ^ 31) (hd : -2 ^ 31 ≤ d ∧ d < 2 ^ 31) :
    -2 ^ 31 ≤ uint i d ∧ uint i d < 2 ^ 31 := by
  unfold uint
  split
  · exact hi
  · exact hd

theorem wrap_range (v : Int) : -2 ^ 31 ≤ wrap v ∧ wrap v < 2 ^ 31 := by
  unfold wrap
  omega

theorem restored_skip_range {percent : Int} (msec : Int) (hp : -2 ^ 31 ≤ percent ∧ percent < 2 ^ 31) :
    (-2 ^ 31 ≤ (restored_skip percent msec).1 ∧ (restored_skip percent msec).1 < 2 ^ 31) ∧
      -2 ^ 31 ≤ (restored_skip percent msec).2 ∧ (restored_skip percent msec).2 < 2 ^ 31 := by
  have hu := uint_range hp zero_range
  unfold restored_skip
  split
  · refine ⟨?_,zero_range⟩
    split
    · exact zero_range
    · exact hu
  · exact ⟨zero_range,wrap_range _⟩

theorem CoreSettings.ints_restored {s₀ s : CoreSettings} (h₀ : Ints s₀.ints) (h : Ints s.ints) :
    Ints (s₀.restored s).ints := by
  simp only [Ints,ints,List.forall_mem_cons] at h₀ h
  obtain ⟨-,-,hb₀,hl₀,hu₀,-,ha₀,ho₀,hv₀,-⟩ := h₀
  obtain ⟨hc,hr,hb,hl,hu,hg,ha,ho,hv,-⟩ := h
  have hb' := uint_range hb hb₀
  have hl' := uint_range hl hl₀
  have hu' := uint_range hu hu₀
  simp only [Ints,ints,restored,normalize,List.forall_mem_cons]
  refine ⟨uint_range hc zero_range,uint_range hr zero_range,?_,?_,?_,hg,uint_range ha ha₀,uint_range ho ho₀,
    uint_range hv hv₀,by simp⟩
  · split <;> omega
  · split <;> omega
  · split <;> omega

theorem QueueSettings.ints_restored {q : QueueSettings} (h : Ints q.ints) : Ints q.restored.ints := by
  simp only [Ints,ints,List.forall_mem_cons] at h
  obtain ⟨hc,hq,hp,-,ht,-,hs,-⟩ := h
  have hskip := restored_skip_range q.autoskip_msec hp
  have htail := restored_skip_range q.autoskip_tail_msec ht
  have hs' := uint_range hs zero_range
  simp only [Ints,ints,restored,conf_normalize,List.forall_mem_cons]
  refine ⟨uint_range hc zero_range,uint_range hq zero_range,hskip.1,hskip.2,htail.1,htail.2,?_,by simp⟩
  split <;> omega

theorem Gui.ints_restored {g : Gui} (h : Ints g.ints) : Ints g.restored.ints := by
  simp only [Ints,ints,List.forall_mem_cons] at h ⊢
  exact ⟨uint_range h.1 zero_range,uint_range h.2.1 zero_range,by simp⟩

theorem CoreSettings.texts_restored {s₀ s : CoreSettings} (h : ∀ x ∈ s.texts,Plain x) :
    ∀ x ∈ (s₀.restored s).texts,Plain x := by
  have hcp : Plain "cp1252".toList := by decide
  have henc : Plain "AAC-LC".toList := by decide
  simp only [texts,List.forall_mem_cons] at h
  obtain ⟨hc,hd,hp,hq,ht,hr,he,ho,-⟩ := h
  simp only [texts,restored,normalize,set_codepage,List.forall_mem_cons]
  refine ⟨?_,hd,hp,hq,ht,hr,?_,ho,by simp⟩
  · split
    · exact hc
    · exact hcp
  · split
    · exact he
    · split
      · exact he
      · split
        · exact he
        · exact henc

theorem Fits.restored {s₀ s : Settings} (h₀ : Fits s₀) (h : Fits s) : Fits (s₀.restored s) where
  setts := CoreSettings.ints_restored h₀.setts h.setts
  qu := QueueSettings.ints_restored h.qu
  gui := Gui.ints_restored h.gui
  texts := CoreSettings.texts_restored h.texts
  path := h.path

theorem Fits.reread {s₀ s : Settings} (h₀ : Fits s₀) (h : Fits s) : Fits (s₀.reread s) := by
  unfold Settings.reread
  split
  · exact h₀.restored h
  · exact h₀

/-! ### The application -/

/-- What `Core.init()` does with the settings that were loaded; `pub_dir` is the directory on the storage. -/
def Settings.opened (pub_dir : Text) (s : Settings) : Settings :=
  let data := if s.setts.pub_data_dir = [] then pub_dir else s.setts.pub_data_dir
  { s with setts := { s.setts with
      pub_data_dir := data
      plist_save_dir := if s.setts.plist_save_dir = [] then data else s.setts.plist_save_dir } }

/-- The file and the settings of the process that runs. `saved` is what the last `saveconf()` that
succeeded was called with. -/
structure App where
  file : Option Text := none
  cur : Option Settings := none
  crashed : Bool := false
  saved : Option Settings := none

inductive Act where
  | start
  -- what the user does
  | edit (s : Settings)
  | saveconf (written renamed : Bool)
  -- The system may end the process at any time.
  | kill

def step (digit : Digit) (pub_dir : Text) (a : App) : Act → Option App
  | .start =>
    if a.cur.isSome then none
    else match loadconf digit {} a.file with
      | some s => some {a with cur := some (s.opened pub_dir)}
      | none => some {a with crashed := true}
  | .edit s => if a.cur.isSome then some {a with cur := some s} else none
  | .saveconf written renamed =>
    a.cur.map fun s => { a with
      file := confWrite written renamed a.file s.text
      saved := if written && renamed then some s else a.saved }
  | .kill => some {a with cur := none}

/-- The settings after the next start. -/
def App.next (pub_dir : Text) (a : App) : Settings :=
  (match a.saved with
    | some s => Settings.reread {} s
    | none => {}).opened pub_dir

structure Good (a : App) : Prop where
  file : a.file = a.saved.map Settings.text
  saved : ∀ s ∈ a.saved,Fits s
  cur : ∀ s ∈ a.cur,Fits s
  crashed : a.crashed = false

theorem fits_default : Fits {} := ⟨by decide,by decide,by decide,by decide +kernel,by decide⟩

theorem Fits.opened {pub_dir : Text} (hp : Plain pub_dir) {s : Settings} (h : Fits s) : Fits (s.opened pub_dir) := by
  have ht := h.texts
  simp only [CoreSettings.texts,List.forall_mem_cons] at ht
  obtain ⟨hc,hd,hl,hq,hr,he,hf,ho,-⟩ := ht
  have hdata : Plain (if s.setts.pub_data_dir = [] then pub_dir else s.setts.pub_data_dir) := by
    split
    · exact hp
    · exact hd
  refine ⟨h.setts,h.qu,h.gui,?_,h.path⟩
  simp only [CoreSettings.texts,Settings.opened,List.forall_mem_cons]
  refine ⟨hc,hdata,?_,hq,hr,he,hf,ho,by simp⟩
  split
  · exact hdata
  · exact hl

theorem Good.load (h : Ascii digit) {a : App} (ha : Good a) :
    loadconf digit {} a.file = some (match a.saved with
      | some s => Settings.reread {} s
      | none => {}) := by
  rw [ha.file]
  cases hs : a.saved with
  | none => rfl
  | some s => exact load_text h {} (ha.saved s hs)

theorem Good.next {pub_dir : Text} (hp : Plain pub_dir) {a : App} (ha : Good a) : Fits (a.next pub_dir) := by
  refine Fits.opened hp ?_
  cases hs : a.saved with
  | none => exact fits_default
  | some s => exact fits_default.reread (ha.saved s hs)

theorem Good.start (h : Ascii digit) {pub_dir : Text} {a : App} (ha : Good a) (hcur : a.cur = none) :
    step digit pub_dir a .start = some {a with cur := some (a.next pub_dir)} := by
  have hsome : a.cur.isSome = false := by simp [hcur]
  simp only [step,hsome,Bool.false_eq_true,if_false,ha.load h]
  rfl

theorem Good.step (h : Ascii digit) {pub_dir : Text} (hp : Plain pub_dir) {a a' : App} {act : Act} (ha : Good a)
    (hedit : ∀ s,act = .edit s → Fits s) (hs : step digit pub_dir a act = some a') : Good a' := by
  cases act with
  | start =>
    by_cases hcur : a.cur = none
    · rw [ha.start h hcur] at hs
      obtain rfl := Option.some.inj hs
      exact ⟨ha.file,ha.saved,fun s hs => Option.mem_some.mp hs ▸ ha.next hp,ha.crashed⟩
    · simp [UserConf.step,Option.isSome_iff_ne_none.mpr hcur] at hs
  | edit s =>
    by_cases hcur : a.cur.isSome
    · simp only [UserConf.step,hcur,if_true,Option.some.injEq] at hs
      subst hs
      exact ⟨ha.file,ha.saved,fun x hx => Option.mem_some.mp hx ▸ hedit s rfl,ha.crashed⟩
    · simp [UserConf.step,hcur] at hs
  | saveconf written renamed =>
    obtain ⟨s,hcur,hs⟩ := Option.map_eq_some_iff.mp hs
    subst hs
    cases hok : written && renamed with
    | true =>
      exact ⟨by simp [confWrite,hok],fun x hx => ha.cur x (by simpa [hok,hcur] using hx),ha.cur,ha.crashed⟩
    | false =>
      exact ⟨by simpa [confWrite,hok] using ha.file,fun x hx => ha.saved x (by simpa [hok] using hx),ha.cur,
        ha.crashed⟩
  | kill =>
    obtain rfl := Option.some.inj hs
    exact ⟨ha.file,ha.saved,by simp,ha.crashed⟩

theorem run_good (h : Ascii digit) {pub_dir : Text} (hp : Plain pub_dir) {as : List Act} {a a' : App} (ha : Good a)
    (hedit : ∀ s,Act.edit s ∈ as → Fits s) (hrun : Machine.run (step digit pub_dir) a as = some a') :
    Good a' := by
  induction as generalizing a with
  | nil => exact Option.some.inj hrun ▸ ha
  | cons act as ih =>
    obtain ⟨m,hm,hrest⟩ := Machine.run_cons_eq_some.mp hrun
    have hgood := ha.step h hp (fun s he => hedit s (he ▸ List.mem_cons_self)) hm
    exact ih hgood (fun s he => hedit s (List.mem_cons_of_mem act he)) hrest

/-- The digits of ASCII. -/
def ascii_digit (c : Char) : Option Nat := if c.isDigit then some (c.toNat - '0'.toNat) else none

theorem ascii_digit_ascii : Ascii ascii_digit := by
  intro n hn
  interval_cases n <;> decide

structure CoreSettings.Held (s : CoreSettings) : Prop where
  codepage : s.codepage = "cp1251".toList ∨ s.codepage = "cp1252".toList
  numbers : ∀ i ∈ [s.rec_channels,s.rec_rate,s.rec_bitrate,s.rec_buf_len_ms,s.rec_until_sec,
    s.conv_aac_quality,s.conv_opus_quality,s.conv_vorbis_quality],0 ≤ i

/-- A percentage, or else milliseconds: a number of seconds that is not negative, in an `int` that is multiplied. -/
structure Skip (x : Int × Int) : Prop where
  percent : 0 ≤ x.1 ∧ x.1 < 100
  alone : x.1 ≠ 0 → x.2 = 0
  msec : ∃ sec : Int,0 ≤ sec ∧ sec < 2 ^ 31 ∧ x.2 = wrap (sec * 1000)

structure QueueSettings.Held (q : QueueSettings) : Prop where
  curpos : -1 ≤ q.curpos
  active : 0 ≤ q.q_active
  selected : q.selected = q.q_active
  skip : Skip (q.autoskip_percent,q.autoskip_msec)
  tail : Skip (q.autoskip_tail_percent,q.autoskip_tail_msec)
  auto_stop : 0 ≤ q.auto_stop_min

structure Held (s : Settings) : Prop where
  setts : s.setts.Held
  qu : s.qu.Held
  list_pos : 0 ≤ s.gui.list_pos
  theme : 0 ≤ s.gui.theme

theorem str_to_uint_nonneg (s : Text) {d : Int} (hd : 0 ≤ d) : 0 ≤ str_to_uint digit s d := by
  unfold str_to_uint
  split
  · split
    · assumption
    · exact hd
  · exact hd

theorem decode_lt {s : Text} {i : Int} (h : decode digit s = some i) : i < 2 ^ 31 := by
  unfold decode at h
  split at h
  all_goals
    obtain ⟨n,-,hn⟩ := Option.bind_eq_some_iff.mp h
    unfold in_range at hn
    split at hn
    · obtain rfl := Option.some.inj hn
      exact (‹_ ∧ _› : _ ∧ _).2
    · cases hn

theorem str_to_uint_lt (s : Text) {d : Int} (hd : d < 2 ^ 31) : str_to_uint digit s d < 2 ^ 31 := by
  unfold str_to_uint
  split
  · next i hi =>
    split
    · exact decode_lt hi
    · exact hd
  · exact hd

theorem skip_zero : Skip (0,0) := ⟨by decide,fun h => absurd rfl h,0,by decide,by decide,by decide⟩

theorem auto_skip_convert_skip (s : Text) : Skip (auto_skip_convert digit s) := by
  unfold auto_skip_convert
  split
  · have hp : 0 ≤ str_to_uint digit s.dropLast 0 := str_to_uint_nonneg s.dropLast (le_refl 0)
    refine ⟨?_,fun _ => rfl,skip_zero.msec⟩
    dsimp only
    split <;> omega
  · exact ⟨skip_zero.percent,fun h => absurd rfl h,_,str_to_uint_nonneg s (le_refl 0),
      str_to_uint_lt s (by decide : (0 : Int) < 2 ^ 31),rfl⟩

theorem set_codepage_known (s : CoreSettings) (v : Text) :
    (s.set_codepage v).codepage = "cp1251".toList ∨ (s.set_codepage v).codepage = "cp1252".toList := by
  simp only [CoreSettings.set_codepage]
  split
  · assumption
  · exact Or.inr rfl

theorem CoreSettings.Held.process {s s' : CoreSettings} (h : s.Held) {k : Option Conf} {v : Text}
    (hs : s.conf_process1 digit k v = some s') : s'.Held := by
  have hu : ∀ d : Int,0 ≤ d → 0 ≤ str_to_uint digit v d := fun _ hd => str_to_uint_nonneg v hd
  have hn := h.numbers
  simp only [List.forall_mem_cons] at hn
  unfold conf_process1 at hs
  split at hs
  all_goals
    first
    | contradiction
    | obtain rfl := Option.some.inj hs
      first
      | exact ⟨h.codepage,h.numbers⟩
      | exact ⟨set_codepage_known s v,h.numbers⟩
      | refine ⟨h.codepage,?_⟩
        simp [hn,hu]

theorem QueueSettings.Held.process {q q' : QueueSettings} (h : q.Held) {k : Option Conf} {v : Text}
    (hq : q.conf_process1 digit k v = some q') : q'.Held := by
  have hu : 0 ≤ str_to_uint digit v 0 := str_to_uint_nonneg v (le_refl 0)
  have hskip : Skip (auto_skip_convert digit v) := auto_skip_convert_skip v
  unfold conf_process1 at hq
  split at hq
  all_goals
    first
    | contradiction
    | obtain rfl := Option.some.inj hq
      first
      | exact ⟨h.curpos,h.active,h.selected,h.skip,h.tail,h.auto_stop⟩
      | exact ⟨by dsimp only; omega,h.active,h.selected,h.skip,h.tail,h.auto_stop⟩
      | exact ⟨h.curpos,hu,rfl,h.skip,h.tail,h.auto_stop⟩
      | exact ⟨h.curpos,h.active,h.selected,hskip,h.tail,h.auto_stop⟩
      | exact ⟨h.curpos,h.active,h.selected,h.skip,hskip,h.auto_stop⟩
      | exact ⟨h.curpos,h.active,h.selected,h.skip,h.tail,hu⟩

theorem Held.process {s : Settings} (h : Held s) (k : Option Conf) (v : Text) : Held (s.process digit k v) := by
  have hu : 0 ≤ str_to_uint digit v 0 := str_to_uint_nonneg v (le_refl 0)
  unfold Settings.process
  split
  · exact ⟨h.setts.process ‹_›,h.qu,h.list_pos,h.theme⟩
  · split
    · exact ⟨h.setts,h.qu.process ‹_›,h.list_pos,h.theme⟩
    · split
      · rename_i g hg
        unfold Gui.conf_process1 at hg
        split at hg
        all_goals
          first
          | contradiction
          | obtain rfl := Option.some.inj hg
            first
            | exact ⟨h.setts,h.qu,h.list_pos,h.theme⟩
            | exact ⟨h.setts,h.qu,hu,h.theme⟩
            | exact ⟨h.setts,h.qu,h.list_pos,hu⟩
      · exact h

theorem Held.fold {s : Settings} (h : Held s) (l : List (Nat × Text)) : Held (l.foldl (Settings.take digit) s) := by
  induction l generalizing s with
  | nil => exact h
  | cons e l ih => exact ih (h.process (Conf.of_id e.1) e.2)

theorem held_default : Held {} :=
  ⟨⟨Or.inr rfl,by decide⟩,⟨by decide,by decide,rfl,skip_zero,skip_zero,by decide⟩,by decide,by decide⟩

/-- The formats that recording knows, with the file name extension of each. -/
def encodings : List (Text × Text) :=
  [("AAC-LC".toList,"m4a".toList),("AAC-HE".toList,"m4a".toList),("AAC-HEv2".toList,"m4a".toList),
    ("FLAC".toList,"flac".toList),("Opus".toList,"opus".toList)]

theorem normalize_encoding (s : CoreSettings) : (s.normalize.rec_enc,s.normalize.rec_fmt) ∈ encodings := by
  simp only [CoreSettings.normalize,encodings]
  split
  · rename_i h
    rcases h with h | h | h <;> simp [h]
  · split
    · rename_i h
      simp [h]
    · split
      · rename_i h
        simp [h]
      · simp

/-- Settings as the rest of the player takes them. -/
structure InRange (s : Settings) : Prop where
  held : Held s
  encoding : (s.setts.rec_enc,s.setts.rec_fmt) ∈ encodings
  bitrate : 0 < s.setts.rec_bitrate
  buf_len : 0 < s.setts.rec_buf_len_ms

theorem Held.normalize {s : Settings} (h : Held s) : InRange s.normalize ∧ s.normalize.qu.auto_stop_min ≠ 0 := by
  have hn := h.setts.numbers
  simp only [List.forall_mem_cons] at hn
  have hb : 0 < s.setts.normalize.rec_bitrate := by
    simp only [CoreSettings.normalize]
    split <;> omega
  have hl : 0 < s.setts.normalize.rec_buf_len_ms := by
    simp only [CoreSettings.normalize]
    split <;> omega
  have hu : 0 ≤ s.setts.normalize.rec_until_sec := by
    simp only [CoreSettings.normalize]
    split <;> omega
  have hstop : 0 ≤ s.qu.conf_normalize.auto_stop_min ∧ s.qu.conf_normalize.auto_stop_min ≠ 0 := by
    have := h.qu.auto_stop
    simp only [QueueSettings.conf_normalize]
    split <;> omega
  have hnum : s.setts.normalize.Held := by
    refine ⟨h.setts.codepage,?_⟩
    simp only [List.forall_mem_cons]
    exact ⟨hn.1,hn.2.1,hb.le,hl.le,hu,hn.2.2.2.2.2⟩
  exact ⟨⟨⟨hnum,⟨h.qu.curpos,h.qu.active,h.qu.selected,h.qu.skip,h.qu.tail,hstop.1⟩,h.list_pos,h.theme⟩,
    normalize_encoding s.setts,hb,hl⟩,hstop.2⟩

/-- Whatever the file has, the settings are in range. The time of the automatic stop is 0 as long as no file was
read. -/
theorem loads_in_range {file : Option Text} {s : Settings} (h : loadconf digit {} file = some s) :
    InRange s ∧ (s.qu.auto_stop_min = 0 ↔ confRead file = .null) := by
  unfold loadconf at h
  split at h
  · rename_i hnull
    obtain rfl := Option.some.inj h
    exact ⟨⟨held_default,by decide,by decide,by decide⟩,by simp [hnull]⟩
  · exact nomatch h
  · rename_i l hl
    obtain rfl := Option.some.inj h
    have hs : InRange (l.foldl (Settings.take digit) {}).normalize ∧ _ := (held_default.fold l).normalize
    exact ⟨hs.1,fun h0 => absurd h0 hs.2,fun h0 => by simp [hl] at h0⟩

theorem loads_in_range_default : InRange (Settings.reread {} {}) ∧
    ((Settings.reread {} {}).qu.auto_stop_min = 0 ↔ confRead (some ({} : Settings).text) = .null) :=
  loads_in_range (load_text ascii_digit_ascii {} fits_default)

end Phiola.Android.UserConf
