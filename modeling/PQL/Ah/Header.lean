import PQL.Ah.Stream

/-!
# AH headers

The header of an AH record is written to and read from an XDR stream by one function, `xdr_ahhead`,
field by field, so that what is written comes back (`xdrAhhead_merge`).  The day of the year in a
`ptime` is not in the stream.  Floating-point fields are words.
-/

namespace PQL

namespace Ah

/-! ## The structures -/

/-- `complex` and `vector`. -/
structure Complex where
  r : Float
  i : Float

structure Calib where
  pole : Complex
  zero : Complex

structure Ptime where
  yr : BitVec 16
  mo : BitVec 16
  day : BitVec 16
  jday : BitVec 16
  hr : BitVec 16
  mn : BitVec 16
  sec : Float

def CODESIZE : ℕ := 6
def CHANSIZE : ℕ := 6
def STYPESIZE : ℕ := 8
def COMSIZE : ℕ := 80
def LOGSIZE : ℕ := 202
def NEXTRAS : ℕ := 21
def NOCALPTS : ℕ := 30
def TYPEMIN : ℤ := 1
def TYPEMAX : ℤ := 6

structure StationInfo where
  code : Fin CODESIZE → Byte
  chan : Fin CHANSIZE → Byte
  stype : Fin STYPESIZE → Byte
  slat : Float
  slon : Float
  elev : Float
  DS : Float
  A0 : Float
  cal : Fin NOCALPTS → Calib

structure EventInfo where
  lat : Float
  lon : Float
  dep : Float
  ot : Ptime
  ecomment : Fin COMSIZE → Byte

structure RecordInfo where
  type : BitVec 16
  ndata : BitVec 32
  delta : Float
  maxamp : Float
  abstime : Ptime
  rmin : Float
  rcomment : Fin COMSIZE → Byte
  log : Fin LOGSIZE → Byte

/-- `ahhed`. -/
structure Ahhed where
  station : StationInfo
  event : EventInfo
  record : RecordInfo
  extra : Fin NEXTRAS → Float

/-! ## The header in the stream -/

section Equivalences

def complexEquiv : Float × Float ≃ Complex where
  toFun t := ⟨t.1, t.2⟩
  invFun c := (c.r, c.i)
  left_inv := fun _ => rfl
  right_inv := fun _ => rfl

def calibEquiv : Complex × Complex ≃ Calib where
  toFun t := ⟨t.1, t.2⟩
  invFun c := (c.pole, c.zero)
  left_inv := fun _ => rfl
  right_inv := fun _ => rfl

def ptimeEquiv :
    BitVec 16 × BitVec 16 × BitVec 16 × BitVec 16 × BitVec 16 × BitVec 16 × Float ≃ Ptime where
  toFun := fun (yr, mo, day, jday, hr, mn, sec) => ⟨yr, mo, day, jday, hr, mn, sec⟩
  invFun t := (t.yr, t.mo, t.day, t.jday, t.hr, t.mn, t.sec)
  left_inv := fun _ => rfl
  right_inv := fun _ => rfl

def stationEquiv : (Fin CODESIZE → Byte) × (Fin CHANSIZE → Byte) × (Fin STYPESIZE → Byte) × Float ×
    Float × Float × Float × Float × (Fin NOCALPTS → Calib) ≃ StationInfo where
  toFun := fun (code, chan, stype, slat, slon, elev, DS, A0, cal) =>
    ⟨code, chan, stype, slat, slon, elev, DS, A0, cal⟩
  invFun s := (s.code, s.chan, s.stype, s.slat, s.slon, s.elev, s.DS, s.A0, s.cal)
  left_inv := fun _ => rfl
  right_inv := fun _ => rfl

def eventEquiv : Float × Float × Float × Ptime × (Fin COMSIZE → Byte) ≃ EventInfo where
  toFun := fun (lat, lon, dep, ot, ecomment) => ⟨lat, lon, dep, ot, ecomment⟩
  invFun e := (e.lat, e.lon, e.dep, e.ot, e.ecomment)
  left_inv := fun _ => rfl
  right_inv := fun _ => rfl

def recordEquiv : BitVec 16 × BitVec 32 × Float × Float × Ptime × Float × (Fin COMSIZE → Byte) ×
    (Fin LOGSIZE → Byte) ≃ RecordInfo where
  toFun := fun (type, ndata, delta, maxamp, abstime, rmin, rcomment, log) =>
    ⟨type, ndata, delta, maxamp, abstime, rmin, rcomment, log⟩
  invFun r := (r.type, r.ndata, r.delta, r.maxamp, r.abstime, r.rmin, r.rcomment, r.log)
  left_inv := fun _ => rfl
  right_inv := fun _ => rfl

def ahhedEquiv : StationInfo × EventInfo × RecordInfo × (Fin NEXTRAS → Float) ≃ Ahhed where
  toFun := fun (station, event, record, extra) => ⟨station, event, record, extra⟩
  invFun h := (h.station, h.event, h.record, h.extra)
  left_inv := fun _ => rfl
  right_inv := fun _ => rfl

end Equivalences

section Header

variable (X : Xdr)

def xdrCalib : Codec Byte Calib :=
  ((X.float.pair X.float).iso complexEquiv |>.pair
    ((X.float.pair X.float).iso complexEquiv)).iso calibEquiv

/-- The fields of a `ptime` in the stream. -/
def xdrPtime : Codec Byte Ptime :=
  (X.short.pair (X.short.pair (X.short.pair (Codec.kept.pair (X.short.pair
    (X.short.pair X.float)))))).iso ptimeEquiv

def xdrStation : Codec Byte StationInfo :=
  ((X.bytes CODESIZE).pair ((X.bytes CHANSIZE).pair ((X.bytes STYPESIZE).pair (X.float.pair
    (X.float.pair (X.float.pair (X.float.pair (X.float.pair
      ((xdrCalib X).array NOCALPTS))))))))).iso stationEquiv

def xdrEvent : Codec Byte EventInfo :=
  (X.float.pair (X.float.pair (X.float.pair ((xdrPtime X).pair (X.bytes COMSIZE))))).iso eventEquiv

def xdrRecordInfo : Codec Byte RecordInfo :=
  (X.short.pair (X.int.pair (X.float.pair (X.float.pair ((xdrPtime X).pair (X.float.pair
    ((X.bytes COMSIZE).pair (X.bytes LOGSIZE)))))))).iso recordEquiv

/-- `xdr_ahhead`. -/
def xdrAhhead : Codec Byte Ahhed :=
  ((xdrStation X).pair ((xdrEvent X).pair ((xdrRecordInfo X).pair (X.floats NEXTRAS)))).iso
    ahhedEquiv

/-- The header as it comes back: the days of the year are those of before. -/
def comesBack (old head : Ahhed) : Ahhed :=
  { head with
    event := { head.event with ot := { head.event.ot with jday := old.event.ot.jday } }
    record := { head.record with
      abstime := { head.record.abstime with jday := old.record.abstime.jday } } }

theorem xdrCalib_complete : (xdrCalib X).Complete := by
  intro old x
  change Calib.mk ⟨X.float.merge _ _, X.float.merge _ _⟩ ⟨X.float.merge _ _, X.float.merge _ _⟩ = x
  simp only [X.float_complete _ _]
  rfl

theorem xdrPtime_merge (old x : Ptime) :
    (xdrPtime X).merge old x = { x with jday := old.jday } := by
  change Ptime.mk (X.short.merge _ _) (X.short.merge _ _) (X.short.merge _ _) _
    (X.short.merge _ _) (X.short.merge _ _) (X.float.merge _ _) = _
  simp only [X.short_complete _ _, X.float_complete _ _]
  rfl

theorem xdrAhhead_merge (old head : Ahhed) : (xdrAhhead X).merge old head = comesBack old head := by
  change Ahhed.mk
    ⟨(X.bytes _).merge _ _, (X.bytes _).merge _ _, (X.bytes _).merge _ _, X.float.merge _ _,
      X.float.merge _ _, X.float.merge _ _, X.float.merge _ _, X.float.merge _ _,
      ((xdrCalib X).array _).merge _ _⟩
    ⟨X.float.merge _ _, X.float.merge _ _, X.float.merge _ _, (xdrPtime X).merge _ _,
      (X.bytes _).merge _ _⟩
    ⟨X.short.merge _ _, X.int.merge _ _, X.float.merge _ _, X.float.merge _ _,
      (xdrPtime X).merge _ _, X.float.merge _ _, (X.bytes _).merge _ _, (X.bytes _).merge _ _⟩
    ((X.floats _).merge _ _) = _
  simp only [X.bytes_complete CODESIZE (by decide) _ _, X.bytes_complete CHANSIZE (by decide) _ _,
    X.bytes_complete STYPESIZE (by decide) _ _, X.bytes_complete COMSIZE (by decide) _ _,
    X.bytes_complete LOGSIZE (by decide) _ _, X.floats_complete NEXTRAS (by decide) _ _,
    X.float_complete _ _, X.short_complete _ _, X.int_complete _ _, xdrPtime_merge,
    (xdrCalib_complete X).array _ _ _]
  rfl

theorem xdrAhhead_needsInput : (xdrAhhead X).NeedsInput :=
  ((((X.bytes_needsInput CODESIZE).pair _).iso stationEquiv).pair _).iso ahhedEquiv

end Header

end Ah

end PQL
