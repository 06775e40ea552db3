import Restyler.Bytes

/-!
# Moments

A clock reading and its text: date and time of day in the proleptic Gregorian calendar at a fixed
offset from UTC, down to microseconds. Seconds are counted in 64 bits from an epoch so early that
every year a 64-bit clock can reach comes after it, and a count that leaves this range wraps around.
-/

namespace Restyler.Trace

/-- Seconds and nanoseconds since the start of 1970, shown `offset` seconds east of UTC. The
nanoseconds may be negative or exceed a second; they carry. -/
structure Moment where
  seconds : Int
  nanoseconds : Int
  offset : Int
  deriving DecidableEq

structure Date where
  year : Int
  month : Nat
  day : Nat
  deriving DecidableEq

/-- The date `days` after 1 January 1970. Years are counted from March in cycles of 400, so that the
leap day is the last of its year. -/
def Date.ofDays (days : Int) : Date :=
  let shifted := days + 719468
  let era := shifted.fdiv 146097
  let dayOfEra := (shifted.fmod 146097).toNat
  let yearOfEra := (dayOfEra - dayOfEra / 1460 + dayOfEra / 36524 - dayOfEra / 146096) / 365
  let dayOfYear := dayOfEra - (365 * yearOfEra + yearOfEra / 4 - yearOfEra / 100)
  let marchMonth := (5 * dayOfYear + 2) / 153
  let day := dayOfYear - (153 * marchMonth + 2) / 5 + 1
  let month := if marchMonth < 10 then marchMonth + 3 else marchMonth - 9
  let year := (yearOfEra : Int) + era * 400 + (if month ≤ 2 then 1 else 0)
  ⟨year, month, day⟩

def padded (width n : Nat) : Bytes := padLeft 0x30 width (decimal n)

def yearText (year : Int) : Bytes :=
  (if year < 0 then [Byte.minus] else []) ++ padded 4 year.natAbs

/-- `Z` for UTC itself; otherwise sign, hours and minutes, seconds dropped. Less than a minute west
of UTC is written with a plus. -/
def offsetText (offset : Int) : Bytes :=
  if offset = 0 then bytes "Z"
  else
    let minutes := offset.tdiv 60
    (if minutes < 0 then [Byte.minus] else [Byte.plus]) ++
      padded 2 (minutes.natAbs / 60) ++ bytes ":" ++ padded 2 (minutes.natAbs % 60)

/-- Seconds from 1 March of the year -292277022400 to the start of 1970. -/
def epochSeconds : Int := 9223372028741760000

/-- The seconds among the `2 ^ 64` after the epoch that differ from `n` by a multiple of `2 ^ 64`. -/
def wrapSeconds (n : Int) : Int := (n + epochSeconds) % 0x10000000000000000 - epochSeconds

def Moment.text (m : Moment) : Bytes :=
  let seconds := wrapSeconds (m.seconds + m.nanoseconds.fdiv 1000000000 + m.offset)
  let micros := ((m.nanoseconds.fmod 1000000000) / 1000).toNat
  let date := Date.ofDays (seconds.fdiv 86400)
  let time := (seconds.fmod 86400).toNat
  yearText date.year ++ bytes "-" ++ padded 2 date.month ++ bytes "-" ++ padded 2 date.day ++
    bytes "T" ++ padded 2 (time / 3600) ++ bytes ":" ++ padded 2 (time / 60 % 60) ++
    bytes ":" ++ padded 2 (time % 60) ++ bytes "." ++ padded 6 micros ++ offsetText m.offset

end Restyler.Trace
