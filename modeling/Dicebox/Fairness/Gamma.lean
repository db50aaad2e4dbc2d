import Dicebox.Number

/-! # The incomplete gamma function

The regularized incomplete gamma function, below by its power series and above by its continued
fraction in Lentz's form. Both are scaled by `exp (-x + a * log x - lgamma a)`, with the logarithm of
the gamma function by Lanczos's approximation with thirteen terms. The exponential function and the
logarithm come from a library, and the last digits of what they give are up to it.

- `Elementary`: a library of elementary functions.
- `logGamma`: the logarithm of the gamma function of a positive number.
- `lowerGamma`: the lower function by its series, for `x < a + 1`.
- `upperGamma`: the upper function by its fraction, for `a + 1 ≤ x`.
-/

namespace Dicebox

/-- A library of elementary functions on binary64 numbers. -/
structure Elementary where
  log : Float → Float
  exp : Float → Float

/-- The library that the machine has. -/
def Elementary.machine : Elementary := ⟨Float.log, Float.exp⟩

namespace Gamma

/-! ## The logarithm of the gamma function -/

def lanczosOffset : Float := 6.024680040776729583740234375

/-- The coefficients of the numerator and of the denominator, the constant ones first. -/
def lanczosCoefficients : List (Float × Float) := [
  (23531376880.410759688572007674451636754734846804940, 0.0),
  (42919803642.649098768957899047001988850926355848959, 39916800.0),
  (35711959237.355668049440185451547166705960488635843, 120543840.0),
  (17921034426.037209699919755754458931112671403265390, 150917976.0),
  (6039542586.3520280050642916443072979210699388420708, 105258076.0),
  (1439720407.3117216736632230727949123939715485786372, 45995730.0),
  (248874557.86205415651146038641322942321632125127801, 13339535.0),
  (31426415.585400194380614231628318205362874684987640, 2637558.0),
  (2876370.6289353724412254090516208496135991145378768, 357423.0),
  (186056.26539522349504029498971604569928220784236328, 32670.0),
  (8071.6720023658162106380029022722506138218516325024, 1925.0),
  (210.82427775157934587250973392071336271166969580291, 66.0),
  (2.5066282746310002701649081771338373386264310793408, 1.0)]

/-- The rational function of Lanczos's approximation. For large arguments it is evaluated in the
reciprocal, so that no power overflows. -/
def lanczosSum (x : Float) : Float :=
  let (num, den) :=
    if x < 5.0 then
      lanczosCoefficients.foldr (fun c (num, den) => (num * x + c.1, den * x + c.2)) (0.0, 0.0)
    else
      lanczosCoefficients.foldl (fun (num, den) c => (num / x + c.1, den / x + c.2)) (0.0, 0.0)
  num / den

/-- The logarithm of the gamma function of a positive number. -/
def logGamma (lib : Elementary) (x : Float) : Except ArithmeticFault Float :=
  if x.isNaN || x.isInf then .ok x
  else if x == 1.0 || x == 2.0 then .ok 0.0
  else if x < 1e-20 then .ok (-lib.log x)
  else
    let r := lib.log (lanczosSum x) - lanczosOffset
    let r := r + (x - 0.5) * (lib.log (x + lanczosOffset - 0.5) - 1.0)
    if r.isInf then .error .overflow else .ok r

def scale (lib : Elementary) (a x : Float) : Except ArithmeticFault Float :=
  if x ≤ 0.0 then .error .domain
  else do
    let y := -x + a * lib.log x - (← logGamma lib a)
    if (lib.exp y).isInf && !y.isInf then .error .overflow else .ok (lib.exp y)

/-! ## The two expansions -/

def maxTerms : Nat := 500

/-- The relative size of a term that no longer matters. -/
def epsilon : Float := 1e-14

/-- What stands for a zero in the fraction. -/
def tiny : Float := 1e-300

/-- Adds up the series from a term on. -/
def seriesFrom (x : Float) : Nat → Float → Float → Float → Float
  | 0, _, _, total => total
  | more + 1, denominator, term, total =>
    let denominator := denominator + 1.0
    let term := term * (x / denominator)
    let total := total + term
    if term.abs < total.abs * epsilon then total else seriesFrom x more denominator term total

/-- The lower function, for `x < a + 1`. -/
def lowerGamma (lib : Elementary) (a x : Float) : Except ArithmeticFault Float := do
  let first := 1.0 / a
  let total := seriesFrom x maxTerms a first first
  return total * (← scale lib a x)

/-- A number kept away from zero. -/
def awayFromZero (x : Float) : Float := if x.abs < tiny then tiny else x

/-- Evaluates the fraction from its `i`th partial quotient on. -/
def fractionFrom (a : Float) : Nat → Float → Float → Float → Float → Float → Float
  | 0, _, _, _, _, h => h
  | more + 1, i, b, c, d, h =>
    let an := -i * (i - a)
    let b := b + 2.0
    let d := awayFromZero (an * d + b)
    let c := awayFromZero (b + an / c)
    let d := 1.0 / d
    let delta := d * c
    let h := h * delta
    if (delta - 1.0).abs < epsilon then h else fractionFrom a more (i + 1.0) b c d h

/-- The upper function, for `a + 1 ≤ x`. -/
def upperGamma (lib : Elementary) (a x : Float) : Except ArithmeticFault Float := do
  let b := x + 1.0 - a
  if b == 0.0 then throw .zeroDivisor
  let d := 1.0 / b
  let h := fractionFrom a (maxTerms - 1) 1.0 b (1.0 / tiny) d d
  return (← scale lib a x) * h

end Gamma

end Dicebox
