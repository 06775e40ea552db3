import Restyler.Rule.Conditionals
import Restyler.Rule.Keywords
import Restyler.Rule.Quotes

/-!
# The pipeline

The three rules in their fixed order. Conditionals are split last, on text whose quotes and keyword
spacing are already normalized.
-/

namespace Restyler

inductive Step where
  | quotes
  | keywordParens
  | conditionals
  deriving DecidableEq

def Step.name : Step → Bytes
  | .quotes => bytes "quotes"
  | .keywordParens => bytes "keyword-parens"
  | .conditionals => bytes "conditionals"

/-- What a step does, given the unit of indentation. -/
def Step.apply (unit : Bytes) : Step → Bytes → Bytes
  | .quotes => Rule.normalizeQuotes
  | .keywordParens => Rule.spaceKeywords
  | .conditionals => Rule.splitConditionals unit

/-- The steps with the unit of indentation that splitting inserts. -/
structure Pipeline where
  unit : Bytes
  deriving DecidableEq

namespace Pipeline

/-- A width of zero or less means two spaces. -/
def ofWidth (width : Int) : Pipeline :=
  ⟨if width ≤ 0 then [Byte.space, Byte.space] else List.replicate width.toNat Byte.space⟩

def standard : Pipeline := ofWidth 0

def steps (_ : Pipeline) : List Step := [.quotes, .keywordParens, .conditionals]

/-- Runs the steps in order and collects those that changed the text. -/
def applyEach (p : Pipeline) (s : Bytes) : Bytes × List Step :=
  p.steps.foldl (fun (s, changed) step =>
    let next := step.apply p.unit s
    (next, if next = s then changed else changed ++ [step])) (s, [])

def apply (p : Pipeline) (s : Bytes) : Bytes := (p.applyEach s).1

end Pipeline

end Restyler
