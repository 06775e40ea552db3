import Restyler.Ansi

/-!
# Version text

The program's version, with the commit and the date of the build when they are known. In colour the
three numbers of a version are painted; anything else is shown as it is.
-/

namespace Restyler

structure Version where
  number : Bytes
  commit : Bytes
  date : Bytes
  deriving DecidableEq

namespace Version

def current : Version := ⟨bytes "0.1.0-dev", [], []⟩

def paint (colour : Bool) (style : Ansi.Style) (s : Bytes) : Bytes :=
  if colour then style.paint s else s

def numberText (v : Version) (colour : Bool) : Bytes :=
  let (core, suffix) := match cut (bytes "-") v.number with
    | some (core, suffix) => (core, bytes "-" ++ suffix)
    | none => (v.number, [])
  match splitOn Byte.dot core with
  | [major, minor, patch] =>
    paint colour Ansi.boldYellow major ++ bytes "." ++
      paint colour Ansi.boldGreen minor ++ bytes "." ++
      paint colour Ansi.boldBlue patch ++ suffix
  | _ => v.number

def text (v : Version) (colour : Bool) : Bytes :=
  v.numberText colour ++
    (if v.commit = [] then [] else bytes " (" ++ v.commit ++ bytes ")") ++
    (if v.date = [] then [] else bytes " built " ++ v.date)

end Version

end Restyler
