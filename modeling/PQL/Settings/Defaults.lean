import PQL.Lib.Records
import PQL.Settings.SortString

/-!
# The defaults file

`make_defaults_file` writes each setting of a table as text into a record of its name, and
`read_defaults_file` scans the records into the settings.  Numbers and colours come back, floating
point numbers only as far as six decimals go, the names of the picks only up to the first space, and
an empty name not at all (`defaults_restored_iff`).
-/

namespace PQL.Defaults

open SortString

/-! ## The settings -/

/-- How a setting is written. -/
inductive DefType where
  | MYBOOL
  | MYINT
  | MYSHORT
  | MYFLOAT
  | MYSTRING
  | MYSTRINGPTR
  | MYCOLOR
deriving DecidableEq, Repr

structure GdkColor where
  red : BitVec 16
  green : BitVec 16
  blue : BitVec 16
deriving DecidableEq, Repr

/-- A character array is the string in it; a pointer may be null. -/
@[reducible] def DefType.Val : DefType → Type
  | .MYBOOL | .MYINT => BitVec 32
  | .MYSHORT => BitVec 16
  | .MYFLOAT => ℚ
  | .MYSTRING => List CChar
  | .MYSTRINGPTR => Option (List CChar)
  | .MYCOLOR => GdkColor

/-- The settings that are saved; the names of the structures in between are left out where they are
not needed. -/
inductive Setting where
  | winDims (i : Fin 2)
  | displayMode
  | panePos (i : Fin 3)
  | traceNumPlots
  | traceTime
  | traceAmp
  | traceGFlag
  | traceOFlag
  | gatherGain (screen : Fin 2)
  | gatherSpread
  | shotLength
  | magnifyTamp
  | magnifyWamp
  | magnifyPick
  | pickFile
  | pickKEYOn
  | pickCOMOn
  | zoomFactor
  | scrollFactor
  | unitsConv
  | pickTag (i : Fin 10)
  | magnifyAnchor
  | dispBox (i : Fin 2)
  | magnifyGFlag
  | magnifyOFlag
  | AGCwinLen
  | AGCdwin
  | AGCdetect
  | AGCthreshold
  | uvwSensor
  | spectraAmp
  | spectraXAxis
  | spectraYAxis
  | spectraDecades
  | spectraYMax
  | spectraXMax
  | spectraXMin
  | split2DA (bottom : Bool)
  | split3DA (i : Fin 3)
  | splitPane
  | splitTraceDisp
  | printFormat
  | printFileN
  | printCommand
  | paperSize
  | paperRes
  | labelFormat
  | dispHdr (i : Fin 17)
  | defaultSort
  | sortStr
  | colorsFg (i : Fin 3)
  | colorsBg (i : Fin 3)
  | colorsSb (i : Fin 4)
  | colorsGp (screen : Fin 2)
  | colorsOp (screen : Fin 2)
  | colorsOl (i : Fin 30)
  | fileFilter
  | mseedInc
  | mseedExc
  | mseedLen
  | fileReplace
  | fileDirectory
deriving DecidableEq

/-- How each setting is written. -/
@[reducible] def Setting.type : Setting → DefType
  | unitsConv | dispBox _ | AGCdetect | dispHdr _ | fileReplace => .MYBOOL
  | gatherGain _ | gatherSpread | AGCthreshold | spectraDecades | spectraYMax | spectraXMax
  | spectraXMin => .MYFLOAT
  | pickTag _ => .MYSTRING
  | pickFile | printFileN | printCommand | sortStr | fileFilter | mseedInc | mseedExc | mseedLen
  | fileDirectory => .MYSTRINGPTR
  | colorsFg _ | colorsBg _ | colorsSb _ | colorsGp _ | colorsOp _ | colorsOl _ => .MYCOLOR
  | _ => .MYINT

/-- The saved settings and the sort criteria in memory. -/
structure PlotSettings where
  vals : (x : Setting) → x.type.Val
  sorts : List SortInfo

/-- A row of a table; the setting at its offset has its type. -/
structure DFAULTS where
  desc : String
  type : DefType
  offset : Setting
  fits : offset.type = type

def defaults : List DFAULTS :=
  [⟨"WSW", .MYINT, .winDims 0, rfl⟩,
    ⟨"WSH", .MYINT, .winDims 1, rfl⟩,
    ⟨"DSPMD", .MYINT, .displayMode, rfl⟩,
    ⟨"PP1", .MYINT, .panePos 0, rfl⟩,
    ⟨"PP2", .MYINT, .panePos 1, rfl⟩,
    ⟨"PP3", .MYINT, .panePos 2, rfl⟩,
    ⟨"TN", .MYINT, .traceNumPlots, rfl⟩,
    ⟨"TT", .MYINT, .traceTime, rfl⟩,
    ⟨"TA", .MYINT, .traceAmp, rfl⟩,
    ⟨"TGF", .MYINT, .traceGFlag, rfl⟩,
    ⟨"TOF", .MYINT, .traceOFlag, rfl⟩,
    ⟨"TGS", .MYFLOAT, .gatherSpread, rfl⟩,
    ⟨"TDG", .MYFLOAT, .gatherGain 0, rfl⟩,
    ⟨"TSL", .MYINT, .shotLength, rfl⟩,
    ⟨"MT", .MYINT, .magnifyTamp, rfl⟩,
    ⟨"MW", .MYINT, .magnifyWamp, rfl⟩,
    ⟨"MP", .MYINT, .magnifyPick, rfl⟩,
    ⟨"MPF", .MYSTRINGPTR, .pickFile, rfl⟩,
    ⟨"MPK", .MYINT, .pickKEYOn, rfl⟩,
    ⟨"MPC", .MYINT, .pickCOMOn, rfl⟩,
    ⟨"MZF", .MYINT, .zoomFactor, rfl⟩,
    ⟨"MSF", .MYINT, .scrollFactor, rfl⟩,
    ⟨"YUC", .MYBOOL, .unitsConv, rfl⟩] ++
  (List.finRange 10).map (fun i => ⟨"MP" ++ toString i.val, .MYSTRING, .pickTag i, rfl⟩) ++
  [⟨"MA", .MYINT, .magnifyAnchor, rfl⟩,
    ⟨"MZB", .MYBOOL, .dispBox 0, rfl⟩,
    ⟨"MPB", .MYBOOL, .dispBox 1, rfl⟩,
    ⟨"MGF", .MYINT, .magnifyGFlag, rfl⟩,
    ⟨"MOF", .MYINT, .magnifyOFlag, rfl⟩,
    ⟨"MDG", .MYFLOAT, .gatherGain 1, rfl⟩,
    ⟨"AGCW", .MYINT, .AGCwinLen, rfl⟩,
    ⟨"AGCDW", .MYINT, .AGCdwin, rfl⟩,
    ⟨"AGCDT", .MYBOOL, .AGCdetect, rfl⟩,
    ⟨"AGCTH", .MYFLOAT, .AGCthreshold, rfl⟩,
    ⟨"TFS", .MYINT, .uvwSensor, rfl⟩,
    ⟨"SA", .MYINT, .spectraAmp, rfl⟩,
    ⟨"SXS", .MYINT, .spectraXAxis, rfl⟩,
    ⟨"SYS", .MYINT, .spectraYAxis, rfl⟩,
    ⟨"SD", .MYFLOAT, .spectraDecades, rfl⟩,
    ⟨"SyMax", .MYFLOAT, .spectraYMax, rfl⟩,
    ⟨"SxMax", .MYFLOAT, .spectraXMax, rfl⟩,
    ⟨"SxMin", .MYFLOAT, .spectraXMin, rfl⟩,
    ⟨"H2T", .MYINT, .split2DA false, rfl⟩,
    ⟨"H2B", .MYINT, .split2DA true, rfl⟩,
    ⟨"H3T", .MYINT, .split3DA 0, rfl⟩,
    ⟨"H3M", .MYINT, .split3DA 1, rfl⟩,
    ⟨"H3B", .MYINT, .split3DA 2, rfl⟩,
    ⟨"HSP", .MYINT, .splitPane, rfl⟩,
    ⟨"HTD", .MYINT, .splitTraceDisp, rfl⟩,
    ⟨"PFMT", .MYINT, .printFormat, rfl⟩,
    ⟨"PFN", .MYSTRINGPTR, .printFileN, rfl⟩,
    ⟨"PC", .MYSTRINGPTR, .printCommand, rfl⟩,
    ⟨"PPS", .MYINT, .paperSize, rfl⟩,
    ⟨"PR", .MYINT, .paperRes, rfl⟩,
    ⟨"LT", .MYINT, .labelFormat, rfl⟩] ++
  (List.finRange 17).map (fun i => ⟨"HDR" ++ toString (i.val + 1), .MYBOOL, .dispHdr i, rfl⟩) ++
  [⟨"SRTDEF", .MYINT, .defaultSort, rfl⟩,
    ⟨"SRTSTR", .MYSTRINGPTR, .sortStr, rfl⟩,
    ⟨"TFG", .MYCOLOR, .colorsFg 0, rfl⟩,
    ⟨"TBG", .MYCOLOR, .colorsBg 0, rfl⟩,
    ⟨"TSB", .MYCOLOR, .colorsSb 0, rfl⟩,
    ⟨"TG1", .MYCOLOR, .colorsGp 0, rfl⟩,
    ⟨"TO1", .MYCOLOR, .colorsOp 0, rfl⟩,
    ⟨"MFG", .MYCOLOR, .colorsFg 1, rfl⟩,
    ⟨"MBG", .MYCOLOR, .colorsBg 1, rfl⟩,
    ⟨"MSB", .MYCOLOR, .colorsSb 1, rfl⟩,
    ⟨"MG1", .MYCOLOR, .colorsGp 1, rfl⟩,
    ⟨"MO1", .MYCOLOR, .colorsOp 1, rfl⟩,
    ⟨"SFG", .MYCOLOR, .colorsFg 2, rfl⟩,
    ⟨"SBG", .MYCOLOR, .colorsBg 2, rfl⟩,
    ⟨"SSB", .MYCOLOR, .colorsSb 2, rfl⟩,
    ⟨"SPSB", .MYCOLOR, .colorsSb 3, rfl⟩] ++
  (List.finRange 30).map fun i => ⟨"OV" ++ toString (i.val + 1), .MYCOLOR, .colorsOl i, rfl⟩

def fileDefaults : List DFAULTS :=
  [⟨"FFLT", .MYSTRINGPTR, .fileFilter, rfl⟩,
    ⟨"FMINC", .MYSTRINGPTR, .mseedInc, rfl⟩,
    ⟨"FMEXC", .MYSTRINGPTR, .mseedExc, rfl⟩,
    ⟨"FMLEN", .MYSTRINGPTR, .mseedLen, rfl⟩,
    ⟨"FREPL", .MYBOOL, .fileReplace, rfl⟩,
    ⟨"FDIR", .MYSTRINGPTR, .fileDirectory, rfl⟩]

/-! ## Defaults -/

/-- A colour from its parts in units of 256. -/
def rgb (c : BitVec 16 × BitVec 16 × BitVec 16) : GdkColor :=
  ⟨c.1 * 256, c.2.1 * 256, c.2.2 * 256⟩

/-- The colours of the overlays. -/
def overlayColors : List (BitVec 16 × BitVec 16 × BitVec 16) :=
  [(205, 92, 92), (85, 107, 47), (240, 248, 100), (188, 143, 143), (199, 21, 133),
   (255, 105, 180), (255, 69, 0), (34, 139, 34), (100, 149, 237), (139, 69, 19), (238, 130, 238),
   (255, 20, 147), (219, 112, 147), (0, 250, 154), (123, 104, 238), (244, 164, 96),
   (208, 32, 144), (173, 255, 47), (208, 32, 144), (124, 252, 0), (138, 43, 226), (165, 42, 42),
   (148, 0, 211), (250, 250, 210), (139, 0, 0), (60, 179, 113), (176, 196, 222), (205, 51, 51),
   (138, 43, 226), (205, 205, 0)]

/-- What `set_defaults` assigns; the other settings keep what they have. -/
def setDefaults (vals : (x : Setting) → x.type.Val) : (x : Setting) → x.type.Val
  | .winDims i => if i = 0 then 1000#32 else 700#32
  | .displayMode => 0#32
  | .panePos i => (if i = 0 then 350#32 else if i = 1 then 233#32 else 466#32)
  | .gatherGain _ => (1 : ℚ)
  | .gatherSpread => (1 : ℚ)
  | .uvwSensor => 0#32
  | .fileDirectory => some ([] : List CChar)
  | .fileFilter => some ([] : List CChar)
  | .mseedInc => some ([] : List CChar)
  | .mseedExc => some ([] : List CChar)
  | .mseedLen => some ([] : List CChar)
  | .fileReplace => 1#32
  | .traceNumPlots => 12#32
  | .traceAmp => 0#32
  | .traceTime => 0#32
  | .traceGFlag => 1#32
  | .traceOFlag => 1#32
  | .magnifyTamp => 0#32
  | .magnifyWamp => 0#32
  | .magnifyPick => 1#32
  | .pickKEYOn => 0#32
  | .pickCOMOn => 0#32
  | .zoomFactor => 15#32
  | .scrollFactor => 60#32
  | .magnifyAnchor => 2#32
  | .dispBox _ => 1#32
  | .magnifyGFlag => 1#32
  | .magnifyOFlag => 1#32
  | .AGCwinLen => 200#32
  | .AGCdwin => 10#32
  | .AGCdetect => 0#32
  | .AGCthreshold => (25 : ℚ)
  | .spectraAmp => 0#32
  | .spectraYAxis => 0#32
  | .spectraXAxis => 1#32
  | .spectraDecades => (7 / 2 : ℚ)
  | .labelFormat => 2#32
  | .printFormat => 1#32
  | .paperSize => 0#32
  | .paperRes => 0#32
  | .splitPane => 1#32
  | .splitTraceDisp => 0#32
  | .split2DA bottom => if bottom then 1#32 else 0#32
  | .split3DA i => BitVec.ofNat 32 i.val
  | .defaultSort => 0#32
  | .sortStr => some ([] : List CChar)
  | .colorsFg _ => (⟨10000, 10000, 10000⟩ : GdkColor)
  | .colorsBg i => if i = 0 then rgb (220, 211, 237) else if i = 1 then rgb (255, 217, 241)
      else rgb (217, 242, 217)
  | .colorsSb i => if i = 0 then rgb (9, 60, 94) else if i = 1 then rgb (78, 16, 83)
      else (⟨6580, 17920, 25344⟩ : GdkColor)
  | .colorsGp i => if i = 0 then (⟨255 * 255, 255 * 255, 27 * 255⟩ : GdkColor)
      else (⟨255 * 255, 215 * 255, 0⟩ : GdkColor)
  | .colorsOp _ => (⟨253 * 255, 64 * 255, 64 * 255⟩ : GdkColor)
  | .colorsOl i => rgb (overlayColors.getD i.val (0, 0, 0))
  | .pickTag i => printInt (i.val + 1)
  | .dispHdr _ => 1#32
  | .shotLength => vals .shotLength
  | .pickFile => vals .pickFile
  | .unitsConv => vals .unitsConv
  | .spectraYMax => vals .spectraYMax
  | .spectraXMax => vals .spectraXMax
  | .spectraXMin => vals .spectraXMin
  | .printFileN => vals .printFileN
  | .printCommand => vals .printCommand

/-! ## Writing and reading -/

/-- What `make_defaults_file` prints; for a null pointer it prints nothing. -/
def valueText : (type : DefType) → type.Val → List CChar
  | .MYBOOL, n => printInt n.toInt
  | .MYINT, n => printInt n.toInt
  | .MYSHORT, n => printInt n.toNat
  | .MYFLOAT, q => printFixed q
  | .MYSTRING, s => s
  | .MYSTRINGPTR, p => p.getD []
  | .MYCOLOR, c => printInt c.red.toNat ++ blank :: (printInt c.green.toNat ++
      blank :: printInt c.blue.toNat)

/-- `%s` of `sscanf`. -/
def scanWord (s : List CChar) : List CChar :=
  (s.dropWhile isSpace).takeWhile fun c => !isSpace c

/-- `%hd %hd %hd`; what cannot be scanned stays. -/
def scanColor (old : GdkColor) (s : List CChar) : GdkColor :=
  match scanInt s with
  | none => old
  | some (red, s) =>
    match scanInt s with
    | none => { old with red := BitVec.ofInt 16 red }
    | some (green, s) =>
      match scanInt s with
      | none => { old with red := BitVec.ofInt 16 red, green := BitVec.ofInt 16 green }
      | some (blue, _) => ⟨BitVec.ofInt 16 red, BitVec.ofInt 16 green, BitVec.ofInt 16 blue⟩

/-- What `read_defaults_file` makes of a value; what cannot be scanned stays, and so does a string
pointer if the value is empty or does not begin with an ASCII character. -/
def readValue : (type : DefType) → type.Val → List CChar → type.Val
  | .MYBOOL, old, s => (scanInt s).elim old fun n => BitVec.ofInt 32 n.1
  | .MYINT, old, s => (scanInt s).elim old fun n => BitVec.ofInt 32 n.1
  | .MYSHORT, old, s => (scanInt s).elim old fun n => BitVec.ofInt 16 n.1
  | .MYFLOAT, old, s => (scanFixed s).elim old (roundTo 24)
  | .MYSTRING, old, s => if scanWord s = [] then old else scanWord s
  | .MYSTRINGPTR, old, s =>
    match s with
    | c :: s => if c.toNat < 128 then some (c :: s) else old
    | [] => old
  | .MYCOLOR, old, s => scanColor old s

/-- A record of the defaults file. -/
abbrev Rec := String × List CChar

/-- The record of a row; there is no result when the text does not fit. -/
def makeRecord (base : PlotSettings) (row : DFAULTS) : Option Rec :=
  let value := valueText row.type (row.fits ▸ base.vals row.offset)
  if value.length < valueSize then some (row.desc, value) else none

/-- The encoded sort criteria are a setting. -/
def encryptSorts (base : PlotSettings) : PlotSettings :=
  { base with vals := Function.update base.vals .sortStr (some (encrypt base.sorts)) }

theorem encryptSorts_sortStr (base : PlotSettings) :
    (encryptSorts base).vals .sortStr = some (encrypt base.sorts) := by
  simp only [encryptSorts, Function.update_self]

/-- `make_defaults_file` for both tables. -/
def makeDefaultsFiles (base : PlotSettings) (db : List Rec) : Option (PlotSettings × List Rec) :=
  let base := encryptSorts base
  (defaults.mapM (makeRecord base)).bind fun recs =>
    (fileDefaults.mapM (makeRecord base)).map fun fileRecs =>
      (base, putAll (putAll db recs) fileRecs)

/-- The loop over the records; a name that the table does not have is passed over. -/
def readRecord (table : List DFAULTS) (vals : (x : Setting) → x.type.Val) (rec : Rec) :
    (x : Setting) → x.type.Val :=
  match table.find? fun row => row.desc = rec.1 with
  | none => vals
  | some row => Function.update vals row.offset
      (row.fits ▸ readValue row.type (row.fits ▸ vals row.offset) rec.2)

/-- The boxes are always shown. -/
def showBoxes (vals : (x : Setting) → x.type.Val) : (x : Setting) → x.type.Val :=
  Function.update (Function.update vals (.dispBox 0) 1#32) (.dispBox 1) 1#32

/-- The zoom factor has a new range. -/
def zoomRange (vals : (x : Setting) → x.type.Val) : (x : Setting) → x.type.Val :=
  if (vals .zoomFactor).toInt > 30 then Function.update vals .zoomFactor 15#32 else vals

/-- What is set behind the loop, whatever was saved. -/
def adjustSettings (pqlOnly : Bool) (vals : (x : Setting) → x.type.Val) :
    (x : Setting) → x.type.Val :=
  let vals := zoomRange (showBoxes vals)
  if pqlOnly then vals else Function.update vals .displayMode 0#32

/-- `read_defaults_file` for the first table; `recs` are the records as the store gives them. -/
def readDefaultsFile (pqlOnly : Bool) (base : PlotSettings) (recs : List Rec) :
    Option PlotSettings :=
  let vals := recs.foldl (readRecord defaults) (setDefaults base.vals)
  (decrypt (base.sorts ++ sortsOf fun _ => []) ((vals .sortStr).getD [])).map fun sorts =>
    ⟨adjustSettings pqlOnly vals, sorts⟩

/-- `read_defaults_file` for the second table. -/
def readFileDefaults (base : PlotSettings) (recs : List Rec) : PlotSettings :=
  { base with vals := recs.foldl (readRecord fileDefaults) base.vals }

/-- The settings before the program starts. -/
def zeroSettings : PlotSettings where
  vals x := match x.type with
    | .MYBOOL | .MYINT => 0#32
    | .MYSHORT => 0#16
    | .MYFLOAT => (0 : ℚ)
    | .MYSTRING => []
    | .MYSTRINGPTR => none
    | .MYCOLOR => ⟨0, 0, 0⟩
  sorts := []

/-- A fresh session reads both tables. -/
def freshSession (pqlOnly : Bool) (recs fileRecs : List Rec) : Option PlotSettings :=
  (readDefaultsFile pqlOnly zeroSettings recs).map fun base => readFileDefaults base fileRecs

/-! ## One value -/

/-- The same setting; a null pointer is an empty string. -/
def Same : (type : DefType) → type.Val → type.Val → Prop
  | .MYSTRINGPTR, p, q => p.getD [] = q.getD []
  | .MYBOOL, m, n => m = n
  | .MYINT, m, n => m = n
  | .MYSHORT, m, n => m = n
  | .MYFLOAT, m, n => m = n
  | .MYSTRING, m, n => m = n
  | .MYCOLOR, m, n => m = n

/-- The values that the text keeps: floating point numbers that are the nearest ones to themselves
rounded to six decimals, names of one word, and strings that begin with an ASCII character. -/
def Kept : (type : DefType) → type.Val → Prop
  | .MYFLOAT, q => roundTo 24 (sixDecimals q) = q
  | .MYSTRING, s => s ≠ [] ∧ ∀ c ∈ s, isSpace c = false
  | .MYSTRINGPTR, p => ∀ c ∈ (p.getD []).head?, c.toNat < 128
  | _, _ => True

instance : (type : DefType) → (v : type.Val) → Decidable (Kept type v)
  | .MYBOOL, _ => isTrue trivial
  | .MYINT, _ => isTrue trivial
  | .MYSHORT, _ => isTrue trivial
  | .MYFLOAT, q => inferInstanceAs (Decidable (roundTo 24 (sixDecimals q) = q))
  | .MYSTRING, s => inferInstanceAs (Decidable (s ≠ [] ∧ ∀ c ∈ s, isSpace c = false))
  | .MYSTRINGPTR, p => inferInstanceAs (Decidable (∀ c ∈ (p.getD []).head?, c.toNat < 128))
  | .MYCOLOR, _ => isTrue trivial

/-- What a fresh session has before the records are read. -/
def Fresh : (type : DefType) → type.Val → Prop
  | .MYSTRING, s => s ≠ [] ∧ ∀ c ∈ s, isSpace c = false
  | .MYSTRINGPTR, p => p.getD [] = []
  | _, _ => True

theorem scanInt_toInt (n : BitVec 32) : scanInt (printInt n.toInt) = some (n.toInt, []) := by
  simpa using scanInt_printInt n.toInt noDigit_nil

/-- A word is scanned whole. -/
theorem scanWord_of_word {s : List CChar} (h : ∀ c ∈ s, isSpace c = false) : scanWord s = s := by
  have hdrop : s.dropWhile isSpace = s := by
    cases s with
    | nil => rfl
    | cons c s => rw [List.dropWhile_cons, h c List.mem_cons_self]; rfl
  rw [scanWord, hdrop, List.takeWhile_eq_self_iff]
  intro c hc
  rw [h c hc]
  rfl

theorem not_space_of_mem_scanWord {s : List CChar} {c : CChar} (hc : c ∈ scanWord s) :
    isSpace c = false := by
  simpa using List.mem_takeWhile_imp hc

/-- Which values come back from their text. -/
theorem readValue_same_iff : ∀ (type : DefType) (old v : type.Val), Fresh type old →
    (Same type (readValue type old (valueText type v)) v ↔ Kept type v) := by
  intro type old v hold
  cases type with
  | MYBOOL =>
    refine iff_of_true ?_ trivial
    rw [Same, readValue, valueText, scanInt_toInt]
    exact BitVec.ofInt_toInt
  | MYINT =>
    refine iff_of_true ?_ trivial
    rw [Same, readValue, valueText, scanInt_toInt]
    exact BitVec.ofInt_toInt
  | MYSHORT =>
    refine iff_of_true ?_ trivial
    have hscan := scanInt_printInt v.toNat noDigit_nil
    rw [List.append_nil] at hscan
    rw [Same, readValue, valueText, hscan]
    simp
  | MYFLOAT =>
    rw [Same, readValue, valueText, scanFixed_printFixed, Kept]
    rfl
  | MYSTRING =>
    rw [Same, readValue, valueText, Kept]
    by_cases hword : scanWord v = []
    · rw [if_pos hword]
      refine iff_of_false ?_ fun h => h.1 ?_
      · rintro rfl
        rw [scanWord_of_word hold.2] at hword
        exact hold.1 hword
      · rw [← hword, scanWord_of_word h.2]
    · rw [if_neg hword]
      constructor
      · intro h
        refine ⟨fun hv => hword (h.trans hv), fun c hc => ?_⟩
        rw [← h] at hc
        exact not_space_of_mem_scanWord hc
      · exact fun h => scanWord_of_word h.2
  | MYSTRINGPTR =>
    rw [Same, valueText, Kept]
    cases v.getD [] with
    | nil => exact iff_of_true hold fun c hc => nomatch hc
    | cons c s =>
      rw [readValue]
      split_ifs with hc
      · exact iff_of_true rfl fun c' hc' => by rwa [← Option.some.inj hc']
      · refine iff_of_false ?_ fun h => hc (h c rfl)
        rw [show old.getD [] = [] from hold]
        exact (List.cons_ne_nil c s).symm
  | MYCOLOR =>
    refine iff_of_true ?_ trivial
    have hblue := scanInt_printInt v.blue.toNat noDigit_nil
    rw [List.append_nil] at hblue
    rw [Same, readValue, valueText, scanColor, scanInt_printInt _ (noDigit_blank _)]
    dsimp only
    rw [scanInt_blank, scanInt_printInt _ (noDigit_blank _)]
    dsimp only
    rw [scanInt_blank, hblue]
    simp

/-! ## The tables -/

theorem tables_desc_nodup : ((defaults ++ fileDefaults).map DFAULTS.desc).Nodup := by decide +kernel

theorem tables_offset_nodup : ((defaults ++ fileDefaults).map DFAULTS.offset).Nodup := by
  decide +kernel

/-- Every setting has a row. -/
theorem exists_row (x : Setting) : ∃ row ∈ defaults ++ fileDefaults, row.offset = x := by
  have hmem : x ∈ (defaults ++ fileDefaults).map DFAULTS.offset := by
    cases x with
    | winDims i => revert i; decide +kernel
    | panePos i => revert i; decide +kernel
    | gatherGain i => revert i; decide +kernel
    | pickTag i => revert i; decide +kernel
    | dispBox i => revert i; decide +kernel
    | split2DA i => revert i; decide +kernel
    | split3DA i => revert i; decide +kernel
    | dispHdr i => revert i; decide +kernel
    | colorsFg i => revert i; decide +kernel
    | colorsBg i => revert i; decide +kernel
    | colorsSb i => revert i; decide +kernel
    | colorsGp i => revert i; decide +kernel
    | colorsOp i => revert i; decide +kernel
    | colorsOl i => revert i; decide +kernel
    | _ => decide +kernel
  exact List.mem_map.1 hmem

/-- A setting that the table does not have is not changed by its records. -/
theorem readRecords_of_notMem {table : List DFAULTS} {x : Setting}
    (hx : ∀ row ∈ table, row.offset ≠ x) (recs : List Rec) (vals : (x : Setting) → x.type.Val) :
    recs.foldl (readRecord table) vals x = vals x := by
  have hone : ∀ vals rec, readRecord table vals rec x = vals x := by
    intro vals rec
    rw [readRecord]
    cases hfind : table.find? fun row => row.desc = rec.1 with
    | none => rfl
    | some row =>
      exact Function.update_of_ne (hx row (List.mem_of_find?_eq_some hfind)).symm _ _
  induction recs generalizing vals with
  | nil => rfl
  | cons rec recs ih => rw [List.foldl_cons, ih, hone]

/-- A setting of the table is read from its record, in whatever order the records come. -/
theorem readRecords_eq {table : List DFAULTS} (hdesc : (table.map DFAULTS.desc).Nodup)
    (hoffset : (table.map DFAULTS.offset).Nodup) {row : DFAULTS} (hrow : row ∈ table)
    {recs : List Rec} {value : List CChar}
    (hrecs : recs.filter (fun r => r.1 = row.desc) = [(row.desc, value)])
    (vals : (x : Setting) → x.type.Val) :
    recs.foldl (readRecord table) vals row.offset =
      readValue row.offset.type (vals row.offset) value := by
  have hproject := foldl_project (readRecord table) (fun vals => vals row.offset)
    (fun v r => readValue row.offset.type v r.2) (fun r => r.1 = row.desc)
    (fun vals r hr => ?_) (fun vals r hr => ?_) recs vals
  · rw [hrecs] at hproject
    exact hproject
  · have hfind := find?_eq_some_of_nodup DFAULTS.desc hdesc hrow
    rw [← of_decide_eq_true hr] at hfind
    obtain ⟨desc, type, offset, rfl⟩ := row
    simp only [readRecord, hfind, Function.update_self]
  · rw [readRecord]
    cases hfind : table.find? fun row => row.desc = r.1 with
    | none => rfl
    | some row' =>
      have hdesc' : row'.desc = r.1 := by simpa using List.find?_some hfind
      have hne : row'.offset ≠ row.offset := fun heq => by
        have hsame := List.inj_on_of_nodup_map hoffset (List.mem_of_find?_eq_some hfind) hrow heq
        rw [hsame] at hdesc'
        exact of_decide_eq_false hr hdesc'.symm
      exact Function.update_of_ne hne.symm _ _

/-! ## Saving and restoring -/

/-- The text fits its record. -/
def Fits (base : PlotSettings) (x : Setting) : Prop :=
  (valueText x.type (base.vals x)).length < valueSize

instance (base : PlotSettings) (x : Setting) : Decidable (Fits base x) :=
  inferInstanceAs (Decidable (_ < _))

theorem makeRecord_eq (base : PlotSettings) (row : DFAULTS) :
    makeRecord base row = if Fits base row.offset then
      some (row.desc, valueText row.offset.type (base.vals row.offset)) else none := by
  obtain ⟨desc, type, offset, rfl⟩ := row
  rfl

/-- The records of a table. -/
def tableRecords (base : PlotSettings) (table : List DFAULTS) : List Rec :=
  table.map fun row => (row.desc, valueText row.offset.type (base.vals row.offset))

/-- Everything is written if every text fits. -/
theorem makeDefaultsFiles_eq (base : PlotSettings) (db : List Rec) :
    makeDefaultsFiles base db =
      if ∀ row ∈ defaults ++ fileDefaults, Fits (encryptSorts base) row.offset then
        some (encryptSorts base,
          putAll db (tableRecords (encryptSorts base) (defaults ++ fileDefaults))) else none := by
  have hmake : ∀ table : List DFAULTS, table.mapM (makeRecord (encryptSorts base)) =
      if ∀ row ∈ table, Fits (encryptSorts base) row.offset then
        some (tableRecords (encryptSorts base) table) else none := by
    intro table
    rw [funext (makeRecord_eq (encryptSorts base))]
    exact mapM_guard (fun row : DFAULTS => Fits (encryptSorts base) row.offset) _ table
  rw [makeDefaultsFiles, hmake, hmake]
  by_cases hone : ∀ row ∈ defaults, Fits (encryptSorts base) row.offset
  · by_cases htwo : ∀ row ∈ fileDefaults, Fits (encryptSorts base) row.offset
    · rw [if_pos hone, if_pos htwo, if_pos (List.forall_mem_append.2 ⟨hone, htwo⟩),
        Option.bind_some, Option.map_some, putAll_append, tableRecords, tableRecords, tableRecords,
        List.map_append]
    · rw [if_pos hone, if_neg htwo, if_neg fun h => htwo (List.forall_mem_append.1 h).2]
      rfl
  · rw [if_neg hone, if_neg fun h => hone (List.forall_mem_append.1 h).1]
    rfl

theorem forall_row_iff {P : Setting → Prop} :
    (∀ row ∈ defaults ++ fileDefaults, P row.offset) ↔ ∀ x, P x := by
  constructor
  · intro h x
    obtain ⟨row, hrow, rfl⟩ := exists_row x
    exact h row hrow
  · exact fun h row _ => h row.offset

/-- The record of a setting is the only one of its name. -/
theorem filter_records {base : PlotSettings} {db recs : List Rec}
    (hrecs : recs.Perm (putAll db (tableRecords base (defaults ++ fileDefaults)))) {row : DFAULTS}
    (hrow : row ∈ defaults ++ fileDefaults) :
    recs.filter (fun r => r.1 = row.desc) =
      [(row.desc, valueText row.offset.type (base.vals row.offset))] := by
  have hkeys : ((tableRecords base (defaults ++ fileDefaults)).map Prod.fst).Nodup := by
    rw [tableRecords, List.map_map]
    exact tables_desc_nodup
  exact filter_perm_putAll hkeys (List.mem_map_of_mem hrow) hrecs

theorem fresh_setDefaults (x : Setting) : Fresh x.type (setDefaults zeroSettings.vals x) := by
  cases x with
  | pickTag i =>
    have hword : ∀ i : Fin 10, printInt (i.val + 1) ≠ [] ∧
        ∀ c ∈ printInt (i.val + 1), isSpace c = false := by decide +kernel
    exact hword i
  | _ => first | exact rfl | exact trivial

/-- The settings behind the loops over the records. -/
theorem loops_eq {base : PlotSettings} {db recs fileRecs : List Rec}
    (hrecs : recs.Perm (putAll db (tableRecords base (defaults ++ fileDefaults))))
    (hfile : fileRecs.Perm (putAll db (tableRecords base (defaults ++ fileDefaults))))
    (x : Setting) :
    (x ∈ defaults.map DFAULTS.offset → recs.foldl (readRecord defaults)
        (setDefaults zeroSettings.vals) x =
      readValue x.type (setDefaults zeroSettings.vals x) (valueText x.type (base.vals x))) ∧
    (x ∈ fileDefaults.map DFAULTS.offset → ∀ vals : (x : Setting) → x.type.Val,
      fileRecs.foldl (readRecord fileDefaults) vals x =
        readValue x.type (vals x) (valueText x.type (base.vals x))) := by
  obtain ⟨hdesc, hfileDesc, -⟩ := List.nodup_append.1 (List.map_append ▸ tables_desc_nodup)
  obtain ⟨hoffset, hfileOffset, -⟩ := List.nodup_append.1 (List.map_append ▸ tables_offset_nodup)
  constructor
  · intro hx
    obtain ⟨row, hrow, rfl⟩ := List.mem_map.1 hx
    exact readRecords_eq hdesc hoffset hrow (filter_records hrecs (List.mem_append_left _ hrow)) _
  · intro hx vals
    obtain ⟨row, hrow, rfl⟩ := List.mem_map.1 hx
    exact readRecords_eq hfileDesc hfileOffset hrow
      (filter_records hfile (List.mem_append_right _ hrow)) vals

/-! ## Which settings come back -/

section Adjust

variable (pqlOnly : Bool) (vals : (x : Setting) → x.type.Val)

/-- The settings that are assigned behind the loop. -/
def Adjusted (x : Setting) : Prop :=
  x = .dispBox 0 ∨ x = .dispBox 1 ∨ x = .zoomFactor ∨ x = .displayMode

instance (x : Setting) : Decidable (Adjusted x) := inferInstanceAs (Decidable (_ ∨ _))

theorem showBoxes_dispBox (i : Fin 2) : showBoxes vals (.dispBox i) = 1#32 := by
  have hi : i = 0 ∨ i = 1 := by revert i; decide
  rcases hi with rfl | rfl
  · exact (Function.update_of_ne (by decide) _ _).trans (Function.update_self _ _ _)
  · exact Function.update_self _ _ _

theorem showBoxes_of_ne {x : Setting} (hbox : x ≠ .dispBox 0) (hbox' : x ≠ .dispBox 1) :
    showBoxes vals x = vals x :=
  (Function.update_of_ne hbox' _ _).trans (Function.update_of_ne hbox _ _)

theorem zoomRange_of_ne {x : Setting} (hx : x ≠ .zoomFactor) : zoomRange vals x = vals x := by
  unfold zoomRange
  split_ifs
  · exact Function.update_of_ne hx _ _
  · rfl

theorem zoomRange_zoomFactor : zoomRange vals .zoomFactor =
    if (vals .zoomFactor).toInt > 30 then 15#32 else vals .zoomFactor := by
  by_cases h : (vals .zoomFactor).toInt > 30
  · have hself : Function.update vals .zoomFactor 15#32 .zoomFactor = 15#32 :=
      Function.update_self _ _ _
    rw [zoomRange, if_pos h, hself, if_pos h]
  · rw [zoomRange, if_neg h, if_neg h]

theorem adjustSettings_of_ne {x : Setting} (hx : x ≠ .displayMode) :
    adjustSettings pqlOnly vals x = zoomRange (showBoxes vals) x := by
  cases pqlOnly
  · exact Function.update_of_ne hx _ _
  · rfl

theorem adjustSettings_dispBox (i : Fin 2) : adjustSettings pqlOnly vals (.dispBox i) = 1#32 := by
  rw [adjustSettings_of_ne pqlOnly vals (by simp), zoomRange_of_ne _ (by simp), showBoxes_dispBox]

theorem adjustSettings_zoomFactor : adjustSettings pqlOnly vals .zoomFactor =
    if (vals .zoomFactor).toInt > 30 then 15#32 else vals .zoomFactor := by
  rw [adjustSettings_of_ne pqlOnly vals (by decide), zoomRange_zoomFactor,
    showBoxes_of_ne vals (by decide) (by decide)]

theorem adjustSettings_displayMode : adjustSettings pqlOnly vals .displayMode =
    if pqlOnly then vals .displayMode else 0#32 := by
  cases pqlOnly
  · have hself :
        Function.update (zoomRange (showBoxes vals)) .displayMode 0#32 .displayMode = 0#32 :=
      Function.update_self _ _ _
    exact hself
  · have hmode : zoomRange (showBoxes vals) .displayMode = vals .displayMode := by
      rw [zoomRange_of_ne _ (by decide), showBoxes_of_ne vals (by decide) (by decide)]
    exact hmode

theorem adjustSettings_of_not {x : Setting} (hx : ¬Adjusted x) :
    adjustSettings pqlOnly vals x = vals x := by
  obtain ⟨hbox, hx⟩ := not_or.1 hx
  obtain ⟨hbox', hx⟩ := not_or.1 hx
  obtain ⟨hzoom, hmode⟩ := not_or.1 hx
  rw [adjustSettings_of_ne pqlOnly vals hmode, zoomRange_of_ne _ hzoom,
    showBoxes_of_ne vals hbox hbox']

end Adjust

/-- The settings that come back: the text keeps them and fits, the boxes are on, the zoom factor is
in its range, and PQLX shows traces. -/
structure Storable (pqlOnly : Bool) (base : PlotSettings) : Prop where
  fits : ∀ x, Fits base x
  kept : ∀ x, Kept x.type (base.vals x)
  dispBox : ∀ i, base.vals (.dispBox i) = 1#32
  zoomFactor : (base.vals .zoomFactor).toInt ≤ 30
  displayMode : pqlOnly = false → base.vals .displayMode = 0#32

/-- A fresh session has the settings that were saved, with the encoded sort criteria. -/
def Restored (pqlOnly : Bool) (base : PlotSettings) (db : List Rec) : Prop :=
  ∃ base' db', makeDefaultsFiles base db = some (base', db') ∧
    ∀ recs fileRecs, recs.Perm db' → fileRecs.Perm db' →
      ∃ s, freshSession pqlOnly recs fileRecs = some s ∧
        ∀ x, Same x.type (s.vals x) (base'.vals x)

/-- Adjusting settings that agree. -/
theorem adjustSettings_congr {pqlOnly : Bool} {vals vals' : (x : Setting) → x.type.Val}
    {x : Setting} (h : vals x = vals' x) :
    adjustSettings pqlOnly vals x = adjustSettings pqlOnly vals' x := by
  by_cases hx : Adjusted x
  · rcases hx with rfl | rfl | rfl | rfl
    · rw [adjustSettings_dispBox, adjustSettings_dispBox]
    · rw [adjustSettings_dispBox, adjustSettings_dispBox]
    · rw [adjustSettings_zoomFactor, adjustSettings_zoomFactor, h]
    · rw [adjustSettings_displayMode, adjustSettings_displayMode, h]
  · rw [adjustSettings_of_not pqlOnly vals hx, adjustSettings_of_not pqlOnly vals' hx, h]

/-- A setting is in one table. -/
theorem table_cases (x : Setting) :
    (x ∈ defaults.map DFAULTS.offset ∧ ∀ row ∈ fileDefaults, row.offset ≠ x) ∨
      (x ∈ fileDefaults.map DFAULTS.offset ∧ (∀ row ∈ defaults, row.offset ≠ x) ∧ ¬Adjusted x) := by
  have hdisjoint := (List.nodup_append.1 (List.map_append ▸ tables_offset_nodup)).2.2
  have hadjusted : ∀ y ∈ fileDefaults.map DFAULTS.offset, ¬Adjusted y := by decide +kernel
  obtain ⟨row, hrow, rfl⟩ := exists_row x
  rcases List.mem_append.1 hrow with h | h
  · have hmem := List.mem_map_of_mem (f := DFAULTS.offset) h
    exact Or.inl ⟨hmem, fun r hr heq => hdisjoint _ hmem _ (List.mem_map_of_mem hr) heq.symm⟩
  · have hmem := List.mem_map_of_mem (f := DFAULTS.offset) h
    exact Or.inr ⟨hmem, fun r hr heq => hdisjoint _ (List.mem_map_of_mem hr) _ hmem heq,
      hadjusted _ hmem⟩

/-- The two loops read every setting from its record. -/
theorem freshSession_eq (pqlOnly : Bool) {base : PlotSettings} {db recs fileRecs : List Rec}
    (hrecs : recs.Perm (putAll db (tableRecords (encryptSorts base) (defaults ++ fileDefaults))))
    (hfile : fileRecs.Perm
      (putAll db (tableRecords (encryptSorts base) (defaults ++ fileDefaults)))) :
    ∃ s vals, freshSession pqlOnly recs fileRecs = some s ∧
      (∀ x, vals x = readValue x.type (setDefaults zeroSettings.vals x)
        (valueText x.type ((encryptSorts base).vals x))) ∧
      ∀ x, s.vals x = adjustSettings pqlOnly vals x := by
  have hloops := loops_eq hrecs hfile
  set first := recs.foldl (readRecord defaults) (setDefaults zeroSettings.vals) with hfirst
  -- the sort criteria in the string can be decoded
  have hstr : first .sortStr = readValue .MYSTRINGPTR (some []) (encrypt base.sorts) := by
    rw [(hloops .sortStr).1 (by decide +kernel), encryptSorts_sortStr]
    rfl
  have hread : (first .sortStr).getD [] = encrypt base.sorts := by
    rw [hstr]
    exact (readValue_same_iff .MYSTRINGPTR (some []) (some (encrypt base.sorts)) rfl).2
      fun c hc => head_encrypt hc
  obtain ⟨user, hdecrypt⟩ := exists_decrypt (fun _ => []) base.sorts
  have hsession : freshSession pqlOnly recs fileRecs = some
      ⟨fileRecs.foldl (readRecord fileDefaults) (adjustSettings pqlOnly first), sortsOf user⟩ := by
    have hsorts : zeroSettings.sorts ++ (sortsOf fun _ => []) = sortsOf fun _ => [] := rfl
    rw [freshSession, readDefaultsFile, ← hfirst, hread, hsorts, hdecrypt]
    rfl
  refine ⟨_, fileRecs.foldl (readRecord fileDefaults) first, hsession, fun x => ?_, fun x => ?_⟩
  · rcases table_cases x with ⟨hx, hnot⟩ | ⟨hx, hnot, -⟩
    · rw [readRecords_of_notMem hnot, (hloops x).1 hx]
    · rw [(hloops x).2 hx, hfirst, readRecords_of_notMem hnot]
  · dsimp only
    rcases table_cases x with ⟨hx, hnot⟩ | ⟨hx, hnot, hadjusted⟩
    · rw [readRecords_of_notMem hnot]
      exact adjustSettings_congr (readRecords_of_notMem hnot fileRecs first).symm
    · rw [adjustSettings_of_not _ _ hadjusted, (hloops x).2 hx, (hloops x).2 hx,
        adjustSettings_of_not _ _ hadjusted]

/-- The values of a fresh session against the saved ones. -/
theorem adjustSettings_same_iff (pqlOnly : Bool) (vals : (x : Setting) → x.type.Val)
    {saved : (x : Setting) → x.type.Val}
    (h : ∀ x, Same x.type (vals x) (saved x) ↔ Kept x.type (saved x)) :
    (∀ x, Same x.type (adjustSettings pqlOnly vals x) (saved x)) ↔
      (∀ x, Kept x.type (saved x)) ∧ (∀ i, saved (.dispBox i) = 1#32) ∧
        (saved .zoomFactor).toInt ≤ 30 ∧ (pqlOnly = false → saved .displayMode = 0#32) := by
  have hzoom : vals .zoomFactor = saved .zoomFactor := (h .zoomFactor).2 trivial
  have hmode : vals .displayMode = saved .displayMode := (h .displayMode).2 trivial
  have hzoomIff : Same .MYINT (adjustSettings pqlOnly vals .zoomFactor) (saved .zoomFactor) ↔
      (saved .zoomFactor).toInt ≤ 30 := by
    rw [adjustSettings_zoomFactor, hzoom, Same]
    split_ifs with hgt
    · refine iff_of_false (fun h15 => ?_) hgt.not_ge
      rw [← h15] at hgt
      exact absurd hgt (by decide)
    · exact iff_of_true rfl (not_lt.1 hgt)
  have hmodeIff : Same .MYINT (adjustSettings pqlOnly vals .displayMode) (saved .displayMode) ↔
      (pqlOnly = false → saved .displayMode = 0#32) := by
    rw [adjustSettings_displayMode, hmode, Same]
    cases pqlOnly
    · exact ⟨fun h0 _ => h0.symm, fun h0 => (h0 rfl).symm⟩
    · exact iff_of_true rfl fun hfalse => Bool.noConfusion hfalse
  have hboxIff : ∀ i, Same .MYBOOL (adjustSettings pqlOnly vals (.dispBox i)) (saved (.dispBox i)) ↔
      saved (.dispBox i) = 1#32 := by
    intro i
    rw [adjustSettings_dispBox, Same]
    exact eq_comm
  constructor
  · intro hsame
    refine ⟨fun x => ?_, fun i => (hboxIff i).1 (hsame (.dispBox i)),
      hzoomIff.1 (hsame .zoomFactor), hmodeIff.1 (hsame .displayMode)⟩
    by_cases hx : Adjusted x
    · rcases hx with rfl | rfl | rfl | rfl <;> trivial
    · rw [← h x, ← adjustSettings_of_not pqlOnly vals hx]
      exact hsame x
  · rintro ⟨hkept, hbox, hrange, hdisplay⟩ x
    by_cases hx : Adjusted x
    · rcases hx with rfl | rfl | rfl | rfl
      · exact (hboxIff 0).2 (hbox 0)
      · exact (hboxIff 1).2 (hbox 1)
      · exact hzoomIff.2 hrange
      · exact hmodeIff.2 hdisplay
    · rw [adjustSettings_of_not pqlOnly vals hx]
      exact (h x).2 (hkept x)

/-- Saving the settings and reading them in a fresh session gives the same settings exactly when all
of them are storable. -/
theorem defaults_restored_iff (pqlOnly : Bool) (base : PlotSettings) (db : List Rec) :
    Restored pqlOnly base db ↔ Storable pqlOnly (encryptSorts base) := by
  have hsame : ∀ recs fileRecs : List Rec,
      recs.Perm (putAll db (tableRecords (encryptSorts base) (defaults ++ fileDefaults))) →
      fileRecs.Perm (putAll db (tableRecords (encryptSorts base) (defaults ++ fileDefaults))) →
      ∃ s, freshSession pqlOnly recs fileRecs = some s ∧
        ((∀ x, Same x.type (s.vals x) ((encryptSorts base).vals x)) ↔
          (∀ x, Kept x.type ((encryptSorts base).vals x)) ∧
            (∀ i, (encryptSorts base).vals (.dispBox i) = 1#32) ∧
            ((encryptSorts base).vals .zoomFactor).toInt ≤ 30 ∧
            (pqlOnly = false → (encryptSorts base).vals .displayMode = 0#32)) := by
    intro recs fileRecs hrecs hfile
    obtain ⟨s, vals, hs, hvals, hadjust⟩ := freshSession_eq pqlOnly hrecs hfile
    refine ⟨s, hs, ?_⟩
    rw [← adjustSettings_same_iff pqlOnly vals fun x => ?_]
    · simp only [hadjust]
    · rw [hvals x]
      exact readValue_same_iff _ _ _ (fresh_setDefaults x)
  unfold Restored
  rw [makeDefaultsFiles_eq]
  constructor
  · rintro ⟨base', db', hmake, hrestored⟩
    rw [Option.ite_none_right_eq_some] at hmake
    obtain ⟨hfits, hmake⟩ := hmake
    obtain ⟨rfl, rfl⟩ := Prod.mk.inj (Option.some.inj hmake)
    obtain ⟨s, hs, hall⟩ := hrestored _ _ (List.Perm.refl _) (List.Perm.refl _)
    obtain ⟨s', hs', hiff⟩ := hsame _ _ (List.Perm.refl _) (List.Perm.refl _)
    obtain rfl := Option.some.inj (hs.symm.trans hs')
    obtain ⟨hkept, hbox, hzoom, hmode⟩ := hiff.1 hall
    exact ⟨forall_row_iff.1 hfits, hkept, hbox, hzoom, hmode⟩
  · intro h
    rw [if_pos (forall_row_iff.2 h.fits)]
    refine ⟨_, _, rfl, fun recs fileRecs hrecs hfile => ?_⟩
    obtain ⟨s, hs, hiff⟩ := hsame recs fileRecs hrecs hfile
    exact ⟨s, hs, hiff.2 ⟨h.kept, h.dispBox, h.zoomFactor, h.displayMode⟩⟩

/-- The defaults themselves are storable. -/
theorem storable_setDefaults (pqlOnly : Bool) :
    Storable pqlOnly (encryptSorts ⟨setDefaults zeroSettings.vals, sortsOf fun _ => []⟩) where
  fits := forall_row_iff.1 (by decide +kernel)
  kept := forall_row_iff.1 (by decide +kernel)
  dispBox i := by simp only [encryptSorts, ne_eq, reduceCtorEq, not_false_eq_true,
    Function.update_of_ne, setDefaults]
  zoomFactor := by decide +kernel
  displayMode _ := by decide +kernel

/-- The default settings, but for the name of the first pick. -/
def namedPick (name : String) : PlotSettings where
  vals := Function.update (setDefaults zeroSettings.vals) (.pickTag 0) (ascii name)
  sorts := sortsOf fun _ => []

/-- The name of a pick as it is saved and as it is read. -/
def savedPick (base : PlotSettings) : Option (List CChar × List CChar) :=
  (makeDefaultsFiles base []).bind fun (base', db) => (freshSession true db db).map fun s =>
    (base'.vals (.pickTag 0), s.vals (.pickTag 0))

/-- Of a name with a space the first word comes back. -/
theorem not_restored_of_space : savedPick (namedPick "P wave") = some (ascii "P wave", ascii "P") ∧
    ¬Restored true (namedPick "P wave") [] := by
  have hsaved : savedPick (namedPick "P wave") = some (ascii "P wave", ascii "P") := by
    decide +kernel
  refine ⟨hsaved, ?_⟩
  rintro ⟨base', db', hmake, hrestored⟩
  obtain ⟨s, hs, hsame⟩ := hrestored db' db' (List.Perm.refl _) (List.Perm.refl _)
  rw [savedPick, hmake, Option.bind_some] at hsaved
  dsimp only at hsaved
  rw [hs, Option.map_some, Option.some.injEq, Prod.mk.injEq] at hsaved
  have htag : s.vals (.pickTag 0) = base'.vals (.pickTag 0) := hsame (.pickTag 0)
  rw [hsaved.1, hsaved.2] at htag
  exact absurd htag (by decide)

end PQL.Defaults
