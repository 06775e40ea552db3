import Restyler.Bytes

/-!
# Terminal colours

A style is an opening and a closing escape sequence. Painting encloses a text and never looks at it.
-/

namespace Restyler.Ansi

structure Style where
  opening : Bytes
  closing : Bytes
  deriving DecidableEq

/-- The sequence that selects the numbered rendition. -/
def sequence (rendition : String) : Bytes := 0x1B :: bytes "[" ++ bytes rendition ++ bytes "m"

def style (opening closing : String) : Style := ⟨sequence opening, sequence closing⟩

def Style.paint (c : Style) (s : Bytes) : Bytes := c.opening ++ s ++ c.closing

def bold : Style := style "1" "22"
def cyan : Style := style "36" "0"
def red : Style := style "31" "0"
def green : Style := style "32" "0"
def boldYellow : Style := style "33;1" "0;22"
def boldGreen : Style := style "32;1" "0;22"
def boldBlue : Style := style "34;1" "0;22"

end Restyler.Ansi
