import Gbase.Lib.Run
import Mathlib.Data.Nat.Count
import Mathlib.Logic.Function.Basic
import Mathlib.Tactic.SplitIfs

/-!
# Log files (`util/log.c`, `util/util_time.c`)

The calendar of the C library is a parameter, and so is the clock: each call comes with the time
that it reads.  A call also comes with what the file system answers: a descriptor, or a negative
number where `open` fails.  A session keeps the file behind each descriptor that was opened, so that
the file in use is what a line is written to, whatever the log has noted about it.  A name that
`sprintf` does not fit into its array is undefined, `none`.  The text of a line is left out.

## Main results

* `fileName_inj`: files of different dates have different names.
* `rotated_iff`: what one call needs in order to leave the right file in use.
* `log_rotates_daily_iff`: over whole runs, files are opened once per day exactly if every call
  meets this.
-/

namespace Gbase.Util.Log

open Gbase.Lib.Run

/-- The fields of `struct tm` that are used. -/
structure Tm where
  tmYear : Int
  tmMon : Int
  tmMday : Int
  tmHour : Int
  tmMin : Int
  tmSec : Int
  tmIsdst : Int

/-- What the C library knows about the calendar. -/
structure Calendar where
  localtimeR : Int → Tm
  mktime : Tm → Int

/-- `util_date_number` -/
def utilDateNumber (lib : Calendar) (time : Int) : UInt32 :=
  let nowTm := lib.localtimeR time
  UInt32.ofInt (nowTm.tmYear + 1900) * 10000 + UInt32.ofInt (nowTm.tmMon + 1) * 100 +
    UInt32.ofInt nowTm.tmMday

/-- `MAX_LOG_NAME_LEN` -/
def maxLogNameLen : Nat := 1024

/-- `LOG_DATE_SECONDS` -/
def logDateSeconds : Int := 60 * 60 * 24

/-- `log_rotator_t`; `check_and_rotate` is always `_date_rotate`. -/
structure LogRotatorT where
  start : Int
  fd : Int
  file : List UInt8
  suffix : UInt32

/-- `log_t` -/
structure LogT where
  rotator : LogRotatorT
  level : Int
  name : List UInt8

/-- The name of a file. -/
def fileName (name : List UInt8) (suffix : UInt32) : List UInt8 :=
  name ++ 0x2e :: (Nat.toDigits 10 suffix.toNat).map fun c => UInt8.ofNat c.toNat

/-- `sprintf` of the name of a file. -/
def sprintfFile (name : List UInt8) (suffix : UInt32) : Option (List UInt8) :=
  if (fileName name suffix).length < maxLogNameLen then some (fileName name suffix) else none

/-- `_date_rotate` at some time, when `open` answers `fd`; with whether a file was opened. -/
def dateRotate (lib : Calendar) (log : LogT) (now fd : Int) : Option (Int × LogT × Bool) :=
  if now ≥ log.rotator.start + logDateSeconds then do
    let suffix := utilDateNumber lib now
    let file ← sprintfFile log.name suffix
    let rotator := { log.rotator with suffix := suffix, file := file, fd := fd }
    return (if fd < 0 then -1 else 0, { log with rotator := rotator }, true)
  else return (0, log, false)

/-- The start of the day, as `_log_date_rotator_create` computes it. -/
def midnight (lib : Calendar) (time : Int) : Int :=
  lib.mktime { lib.localtimeR time with tmHour := 0, tmMin := 0, tmSec := 0 }

/-- `_log_date_rotator_create` at some time, when `open` answers `fd`; both ways to open a file are
one here. -/
def logDateRotatorCreate (lib : Calendar) (name : List UInt8) (now fd : Int) :
    Option (Int × LogRotatorT) := do
  let suffix := utilDateNumber lib now
  let file ← sprintfFile name suffix
  return (if fd < 0 then -1 else 0,
    { start := midnight lib now, fd := fd, file := file, suffix := suffix })

/-- `log_create`, if `name` is not null; none inside is a null pointer. -/
def logCreate (lib : Calendar) (level : Int) (name : List UInt8) (now fd : Int) :
    Option (Option LogT) := do
  let name := name.take (maxLogNameLen - 1)
  let (res, rotator) ← logDateRotatorCreate lib name now fd
  if res < 0 then return none
  else return some { rotator := rotator, level := level, name := name }

/-- A call of `log_write`: its level, whether `write` writes, the time that `_date_rotate` reads,
and what `open` answers if it is called. -/
structure Call where
  level : Int
  writes : Bool
  now : Int
  fd : Int

/-- `log_write`; with whether a file was opened. -/
def logWrite (lib : Calendar) (log : LogT) (c : Call) : Option (Int × LogT × Bool) :=
  if c.level ≤ log.level then
    if !c.writes then some (-1, log, false)
    else do
      let (_, log, opened) ← dateRotate lib log c.now c.fd
      return (0, log, opened)
  else some (0, log, false)

/-! ## Runs -/

/-- A log, when it was created and last called, how many files were opened since, and the file
behind each descriptor that `open` returned. -/
structure Session where
  log : LogT
  created : Int
  last : Int
  opens : Nat
  files : Int → Option (List UInt8)

/-- What `open` leaves: when it answers with a descriptor, the file is behind it. -/
def openFile (files : Int → Option (List UInt8)) (file : List UInt8) (fd : Int) :
    Int → Option (List UInt8) :=
  if fd < 0 then files else Function.update files fd (some file)

/-- The file in use: the one behind the log's descriptor. -/
def Session.inUse (s : Session) : Option (List UInt8) := s.files s.log.rotator.fd

/-- A session with a log that was created at some time. -/
def newSession (log : LogT) (created : Int) : Session where
  log := log
  created := created
  last := created
  opens := 0
  files := openFile (fun _ => none) log.rotator.file log.rotator.fd

/-- A call on the log of a session. -/
def logStep (lib : Calendar) : Step Session Call Int := fun s c =>
  (logWrite lib s.log c).map fun (res, log, opened) =>
    (res, { log := log
            created := s.created
            last := c.now
            opens := if opened then s.opens + 1 else s.opens
            files := if opened then openFile s.files log.rotator.file log.rotator.fd else s.files })

/-- The clock does not run backwards, and the call writes. -/
def Legal (s : Session) (c : Call) : Prop :=
  c.level ≤ s.log.level ∧ c.writes = true ∧ s.last ≤ c.now

/-- The local time is 0:00:00. -/
def Calendar.IsMidnight (lib : Calendar) (time : Int) : Prop :=
  (lib.localtimeR time).tmHour = 0 ∧ (lib.localtimeR time).tmMin = 0 ∧
    (lib.localtimeR time).tmSec = 0

instance (lib : Calendar) : DecidablePred lib.IsMidnight := fun time =>
  inferInstanceAs (Decidable ((lib.localtimeR time).tmHour = 0 ∧
    (lib.localtimeR time).tmMin = 0 ∧ (lib.localtimeR time).tmSec = 0))

/-- How many midnights there were since some time. -/
def midnights (lib : Calendar) (created now : Int) : Nat :=
  Nat.count (fun seconds => lib.IsMidnight (created + 1 + seconds)) (now - created).toNat

/-- After a call the file in use is the one named after its date, and no more files were opened
since the creation than there were midnights. -/
def Rotated (lib : Calendar) (_ : Session) (c : Call) (_ : Int) (t : Session) : Prop :=
  t.inUse = some (fileName t.log.name (utilDateNumber lib c.now)) ∧
    t.opens ≤ midnights lib t.created c.now

/-- Within 24 hours of the midnight before the creation, the date is the one of the file in use;
later, there were fewer such calls before than midnights, the name fits, and the file can be
opened. -/
def InTime (lib : Calendar) (s : Session) (c : Call) : Prop :=
  if c.now ≥ s.log.rotator.start + logDateSeconds then
    s.opens < midnights lib s.created c.now ∧
      (sprintfFile s.log.name (utilDateNumber lib c.now)).isSome ∧ 0 ≤ c.fd
  else s.log.rotator.suffix = utilDateNumber lib c.now

/-- Between good calls the file in use has the name of the log's suffix, few files were opened, and
there is none behind a negative number. -/
structure Inv (lib : Calendar) (s : Session) : Prop where
  file : s.inUse = some (fileName s.log.name s.log.rotator.suffix)
  opens : s.opens ≤ midnights lib s.created s.last
  negative : ∀ fd < 0, s.files fd = none

section

variable {lib : Calendar} {s : Session} {c : Call}

private theorem midnights_mono (lib : Calendar) (created : Int) {a b : Int} (hLe : a ≤ b) :
    midnights lib created a ≤ midnights lib created b :=
  Nat.count_monotone _ (Int.toNat_le_toNat (Int.sub_le_sub_right hLe created))

/-- A call within 24 hours leaves the file as it is. -/
theorem logStep_early (hLegal : Legal s c)
    (hEarly : ¬ c.now ≥ s.log.rotator.start + logDateSeconds) :
    logStep lib s c = some (0, { s with last := c.now }) := by
  simp [logStep, logWrite, dateRotate, hLegal.1, hLegal.2.1, hEarly]

/-- A later call opens the file of its date, if the name fits. -/
theorem logStep_late (hLegal : Legal s c)
    (hLate : c.now ≥ s.log.rotator.start + logDateSeconds) :
    logStep lib s c = (sprintfFile s.log.name (utilDateNumber lib c.now)).map fun file =>
      (0, { log := { s.log with
              rotator := { s.log.rotator with
                suffix := utilDateNumber lib c.now, file := file, fd := c.fd } }
            created := s.created
            last := c.now
            opens := s.opens + 1
            files := openFile s.files file c.fd }) := by
  cases hFile : sprintfFile s.log.name (utilDateNumber lib c.now) with
  | none => simp [logStep, logWrite, dateRotate, hLegal.1, hLegal.2.1, hLate, hFile]
  | some file => simp [logStep, logWrite, dateRotate, hLegal.1, hLegal.2.1, hLate, hFile]

theorem sprintfFile_eq {name file : List UInt8} {suffix : UInt32}
    (hFile : sprintfFile name suffix = some file) : file = fileName name suffix := by
  unfold sprintfFile at hFile
  split_ifs at hFile
  cases hFile
  rfl

/-- The bytes of a number give its digits back. -/
theorem bytes_of_digits (n : Nat) :
    (((Nat.toDigits 10 n).map fun c => UInt8.ofNat c.toNat).map fun b => Char.ofNat b.toNat) =
      Nat.toDigits 10 n := by
  rw [List.map_map]
  conv_rhs => rw [← List.map_id (Nat.toDigits 10 n)]
  apply List.map_congr_left
  intro c hc
  have hDigit := Nat.isDigit_of_mem_toDigits (by decide) (by decide) hc
  have hLess : c.toNat < 256 := by
    simp only [Char.isDigit, Bool.and_eq_true, decide_eq_true_eq, UInt32.le_iff_toNat_le] at hDigit
    exact Nat.lt_of_le_of_lt hDigit.2 (by decide)
  show Char.ofNat (UInt8.ofNat c.toNat).toNat = c
  rw [UInt8.toNat_ofNat_of_lt' hLess, Char.ofNat_toNat]

/-- Files of different dates have different names. -/
theorem fileName_inj {name : List UInt8} {date date' : UInt32}
    (hSame : fileName name date = fileName name date') : date = date' := by
  have hDigits := (List.cons.inj (List.append_cancel_left hSame)).2
  have hChars := congrArg (List.map fun b : UInt8 => Char.ofNat b.toNat) hDigits
  rw [bytes_of_digits, bytes_of_digits] at hChars
  have hNat := congrArg (fun cs => Nat.ofDigitChars 10 cs 0) hChars
  simp only [Nat.ofDigitChars_ten_toDigits] at hNat
  exact UInt32.toNat_inj.mp hNat

/-- What `open` leaves is behind its descriptor. -/
theorem openFile_self {files : Int → Option (List UInt8)} (file : List UInt8) {fd : Int}
    (hFd : 0 ≤ fd) : openFile files file fd fd = some file := by
  rw [openFile, if_neg (Int.not_lt.mpr hFd), Function.update_self]

theorem openFile_negative {files : Int → Option (List UInt8)} (hNone : ∀ fd < 0, files fd = none)
    (file : List UInt8) (fd : Int) : ∀ fd' < 0, openFile files file fd fd' = none := by
  intro fd' hNeg
  unfold openFile
  split_ifs with hFail
  · exact hNone fd' hNeg
  · rw [Function.update_of_ne (by omega)]
    exact hNone fd' hNeg

/-- What a call needs. -/
theorem rotated_iff (hInv : Inv lib s) (hLegal : Legal s c) :
    Does (logStep lib) (Rotated lib) s c ↔ InTime lib s c := by
  unfold InTime
  split_ifs with hLate
  · cases hFile : sprintfFile s.log.name (utilDateNumber lib c.now) with
    | none =>
        have hStep := @logStep_late lib s c hLegal hLate
        rw [hFile] at hStep
        exact iff_of_false (not_does hStep) (by simp)
    | some file =>
        have hStep := @logStep_late lib s c hLegal hLate
        rw [hFile] at hStep
        rw [does_iff hStep]
        constructor
        · rintro ⟨hUse, hOpens⟩
          refine ⟨hOpens, rfl, ?_⟩
          by_contra hFail
          have hNone := openFile_negative hInv.negative file c.fd c.fd (by omega)
          exact Option.some_ne_none _ (hUse.symm.trans hNone)
        · rintro ⟨hOpens, -, hFd⟩
          refine ⟨?_, hOpens⟩
          rw [← sprintfFile_eq hFile]
          exact openFile_self file hFd
  · rw [does_iff (logStep_early hLegal hLate)]
    constructor
    · rintro ⟨hUse, -⟩
      have hSame := hInv.file.symm.trans hUse
      exact fileName_inj (Option.some.inj hSame)
    · intro hDate
      refine ⟨?_, ?_⟩
      · rw [← hDate]
        exact hInv.file
      · exact hInv.opens.trans (midnights_mono lib s.created hLegal.2.2)

private theorem logStep_last {res : Int} {t : Session} (hStep : logStep lib s c = some (res, t)) :
    t.last = c.now := by
  obtain ⟨r, -, hEq⟩ := Option.map_eq_some_iff.mp hStep
  cases hEq
  rfl

/-- A call that is in time keeps the invariant. -/
theorem inv_of_inTime (hInv : Inv lib s) (hLegal : Legal s c) (hTime : InTime lib s c) {res : Int}
    {t : Session} (hStep : logStep lib s c = some (res, t)) : Inv lib t := by
  obtain ⟨-, hOpens⟩ := (does_iff hStep).mp ((rotated_iff hInv hLegal).mpr hTime)
  rw [← logStep_last hStep] at hOpens
  unfold InTime at hTime
  split_ifs at hTime with hLate
  · obtain ⟨-, -, hFd⟩ := hTime
    rw [logStep_late hLegal hLate] at hStep
    obtain ⟨file, hFile, hEnd⟩ := Option.map_eq_some_iff.mp hStep
    cases hEnd
    refine ⟨?_, hOpens, openFile_negative hInv.negative file c.fd⟩
    show openFile s.files file c.fd c.fd = some (fileName s.log.name (utilDateNumber lib c.now))
    rw [← sprintfFile_eq hFile]
    exact openFile_self file hFd
  · rw [logStep_early hLegal hLate] at hStep
    cases hStep
    exact ⟨hInv.file, hOpens, hInv.negative⟩

/-- A new log is in order. -/
theorem inv_create {level created fd : Int} {name : List UInt8} {log : LogT}
    (hCreate : logCreate lib level name created fd = some (some log)) :
    Inv lib (newSession log created) := by
  refine ⟨?_, Nat.zero_le _, openFile_negative (fun _ _ => rfl) _ _⟩
  unfold logCreate logDateRotatorCreate at hCreate
  cases hFile : sprintfFile (name.take (maxLogNameLen - 1)) (utilDateNumber lib created) with
  | none => simp [hFile] at hCreate
  | some file =>
      simp only [hFile, Option.bind_eq_bind, Option.bind_some, Option.pure_def] at hCreate
      by_cases hFd : fd < 0
      · simp [hFd] at hCreate
      · simp only [hFd, if_false, Int.lt_irrefl] at hCreate
        cases hCreate
        exact (openFile_self file (Int.not_lt.mp hFd)).trans (congrArg some (sprintfFile_eq hFile))

end

/-- In every run of calls that write, on any log and under a clock that does not run backwards,
files are opened at most once per midnight and the one in use is that of the date exactly if every
call meets `InTime`. -/
theorem log_rotates_daily_iff {lib : Calendar} {level created fd : Int} {name : List UInt8}
    {log : LogT} {calls : List Call}
    (hCreate : logCreate lib level name created fd = some (some log))
    (hLegal : Along (logStep lib) Legal (newSession log created) calls) :
    Along (logStep lib) (Does (logStep lib) (Rotated lib)) (newSession log created) calls ↔
      Along (logStep lib) (InTime lib) (newSession log created) calls :=
  along_iff_of_inv (Inv lib) (fun _ _ hInv hLegal => rotated_iff hInv hLegal)
    (fun _ _ _ _ hInv hLegal hDoes hStep =>
      inv_of_inTime hInv hLegal ((rotated_iff hInv hLegal).mp hDoes) hStep)
    (inv_create hCreate) hLegal

/-- January 1970 in universal time. -/
def january : Calendar where
  localtimeR time := ⟨70, 0, 1 + time / 86400, time % 86400 / 3600, time % 3600 / 60, time % 60, 0⟩
  mktime tm := (tm.tmMday - 1) * 86400 + tm.tmHour * 3600 + tm.tmMin * 60 + tm.tmSec

/-- The log `l`, created at noon of the first day. -/
def noonLog : LogT :=
  ⟨⟨0, 3, fileName [0x6c] 19700101, 19700101⟩, 4, [0x6c]⟩

theorem noonLog_create : logCreate january 4 [0x6c] 43200 3 = some (some noonLog) := by
  rfl

/-- The second day has one midnight behind the noon before it. -/
theorem january_midnights {now : Int} (hStart : 86400 ≤ now) (hEnd : now < 172800) :
    midnights january 43200 now = 1 := by
  have hOne : (Finset.range (now - 43200).toNat).filter
      (fun seconds : Nat => january.IsMidnight (43200 + 1 + seconds)) = {43199} := by
    ext seconds
    rw [Finset.mem_filter, Finset.mem_range, Finset.mem_singleton]
    simp only [Calendar.IsMidnight, january]
    omega
  rw [midnights, Nat.count_eq_card_filter_range, hOne, Finset.card_singleton]

/-- The session with it. -/
def noonSession : Session := newSession noonLog 43200

/-- The session in the course of the second day. -/
def secondDay (s : Session) (last fd : Int) : Session where
  log := ⟨⟨0, fd, fileName [0x6c] 19700102, 19700102⟩, 4, [0x6c]⟩
  created := 43200
  last := last
  opens := s.opens + 1
  files := openFile s.files (fileName [0x6c] 19700102) fd

theorem step_afternoon : logStep january noonSession ⟨1, true, 50000, 4⟩ =
    some (0, { noonSession with last := 50000 }) :=
  logStep_early ⟨by decide, rfl, by decide⟩ (by decide)

private theorem second_name : sprintfFile [0x6c] 19700102 = some (fileName [0x6c] 19700102) :=
  if_pos (by decide)

private theorem step_midnight : logStep january noonSession ⟨1, true, 86405, 4⟩ =
    some (0, secondDay noonSession 86405 4) := by
  have hDate : utilDateNumber january 86405 = 19700102 := by decide
  rw [logStep_late ⟨by decide, rfl, by decide⟩ (by decide), hDate]
  exact congrArg (Option.map _) second_name

private theorem step_second : logStep january (secondDay noonSession 86405 4) ⟨1, true, 86406, 5⟩ =
    some (0, secondDay (secondDay noonSession 86405 4) 86406 5) := by
  have hDate : utilDateNumber january 86406 = 19700102 := by decide
  rw [logStep_late ⟨by decide, rfl, by decide⟩ (by decide), hDate]
  exact congrArg (Option.map _) second_name

/-- A call in the afternoon and one behind the first midnight. -/
theorem log_rotates_daily_once :
    Along (logStep january) (Does (logStep january) (Rotated january)) (newSession noonLog 43200)
      [⟨1, true, 50000, 4⟩, ⟨1, true, 86405, 5⟩] := by
  have hLegal : Along (logStep january) Legal (newSession noonLog 43200)
      [⟨1, true, 50000, 4⟩, ⟨1, true, 86405, 5⟩] := by
    refine (along_cons step_afternoon).mpr ⟨⟨by decide, rfl, by decide⟩, ?_⟩
    exact ⟨⟨by decide, rfl, by decide⟩, fun _ _ _ => trivial⟩
  refine (log_rotates_daily_iff noonLog_create hLegal).mpr
    ((along_cons step_afternoon).mpr ⟨?_, ?_⟩)
  · rw [InTime, if_neg (by decide)]
    decide
  · refine ⟨?_, fun _ _ _ => trivial⟩
    rw [InTime, if_pos (by decide)]
    refine ⟨?_, by decide, by decide⟩
    show 0 < midnights january 43200 86405
    rw [january_midnights (by decide) (by decide)]
    decide

/-- Two calls behind the first midnight open two files. -/
theorem log_rotates_twice :
    Along (logStep january) Legal noonSession
        [⟨1, true, 86405, 4⟩, ⟨1, true, 86406, 5⟩] ∧
      ¬ Along (logStep january) (Does (logStep january) (Rotated january))
        noonSession [⟨1, true, 86405, 4⟩, ⟨1, true, 86406, 5⟩] := by
  constructor
  · refine (along_cons step_midnight).mpr ⟨⟨by decide, rfl, by decide⟩, ?_⟩
    exact ⟨⟨by decide, rfl, by decide⟩, fun _ _ _ => trivial⟩
  · intro hAlong
    have hSecond := (hAlong.tail step_midnight).head
    obtain ⟨-, hOpens⟩ := (does_iff step_second).mp hSecond
    have hTwo : 2 ≤ midnights january 43200 86406 := hOpens
    rw [january_midnights (by decide) (by decide)] at hTwo
    exact absurd hTwo (by decide)

end Gbase.Util.Log
