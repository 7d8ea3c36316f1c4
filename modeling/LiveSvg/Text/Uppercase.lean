import LiveSvg.Text.Ranges
import LiveSvg.Text.Blank
/-!
Capital letters, with the letters whose capital is a sequence of several.
-/

namespace LiveSvg.Text

/-- Runs of letters at one distance from their capitals: first code, count, step, distance. -/
structure CaseRun where
  first : Nat
  count : Nat
  step : Nat
  distance : Int

def CaseRun.capital? (r : CaseRun) (code : Nat) : Option Char :=
  if r.first ≤ code ∧ code ≤ r.first + (r.count - 1) * r.step ∧ (code - r.first) % r.step = 0 then
    some (Char.ofNat ((code : Int) + r.distance).toNat)
  else none

/-- Reads one run; a minus sign stands before a negative distance. -/
def CaseRun.ofText (s : String) : Option CaseRun :=
  match hexNumbers s with
  | [first, count, step, d] =>
    some { first, count, step, distance := if s.toList.contains '-' then -(d : Int) else d }
  | _ => none

def caseRuns : List CaseRun := (words (String.toList
  "b5.1.1.2e7 e0.17.1.-20 f8.7.1.-20 ff.1.1.79 101.18.2.-1 131.1.1.-e8 133.3.2.-1 13a.8.2.-1
    14b.17.2.-1 17a.3.2.-1 17f.1.1.-12c 180.1.1.c3 183.2.2.-1 188.1.1.-1 18c.1.1.-1 192.1.1.-1
    195.1.1.61 199.1.1.-1 19a.1.1.a3 19e.1.1.82 1a1.3.2.-1 1a8.1.1.-1 1ad.1.1.-1 1b0.1.1.-1
    1b4.2.2.-1 1b9.1.1.-1 1bd.1.1.-1 1bf.1.1.38 1c5.1.1.-1 1c6.1.1.-2 1c8.1.1.-1 1c9.1.1.-2
    1cb.1.1.-1 1cc.1.1.-2 1ce.8.2.-1 1dd.1.1.-4f 1df.9.2.-1 1f2.1.1.-1 1f3.1.1.-2 1f5.1.1.-1
    1f9.14.2.-1 223.9.2.-1 23c.1.1.-1 23f.2.1.2a3f 242.1.1.-1 247.5.2.-1 250.1.1.2a1f
    251.1.1.2a1c 252.1.1.2a1e 253.1.1.-d2 254.1.1.-ce 256.2.1.-cd 259.1.1.-ca 25b.1.1.-cb
    25c.1.1.a54f 260.1.1.-cd 261.1.1.a54b 263.1.1.-cf 265.1.1.a528 266.1.1.a544 268.1.1.-d1
    269.1.1.-d3 26a.1.1.a544 26b.1.1.29f7 26c.1.1.a541 26f.1.1.-d3 271.1.1.29fd 272.1.1.-d5
    275.1.1.-d6 27d.1.1.29e7 280.1.1.-da 282.1.1.a543 283.1.1.-da 287.1.1.a52a 288.1.1.-da
    289.1.1.-45 28a.2.1.-d9 28c.1.1.-47 292.1.1.-db 29d.1.1.a515 29e.1.1.a512 345.1.1.54
    371.2.2.-1 377.1.1.-1 37b.3.1.82 3ac.1.1.-26 3ad.3.1.-25 3b1.11.1.-20 3c2.1.1.-1f
    3c3.9.1.-20 3cc.1.1.-40 3cd.2.1.-3f 3d0.1.1.-3e 3d1.1.1.-39 3d5.1.1.-2f 3d6.1.1.-36
    3d7.1.1.-8 3d9.c.2.-1 3f0.1.1.-56 3f1.1.1.-50 3f2.1.1.7 3f3.1.1.-74 3f5.1.1.-60 3f8.1.1.-1
    3fb.1.1.-1 430.20.1.-20 450.10.1.-50 461.11.2.-1 48b.1b.2.-1 4c2.7.2.-1 4cf.1.1.-f
    4d1.30.2.-1 561.26.1.-30 10d0.2b.1.bc0 10fd.3.1.bc0 13f8.6.1.-8 1c80.1.1.-186e
    1c81.1.1.-186d 1c82.1.1.-1864 1c83.2.1.-1862 1c85.1.1.-1863 1c86.1.1.-185c 1c87.1.1.-1825
    1c88.1.1.89c2 1d79.1.1.8a04 1d7d.1.1.ee6 1d8e.1.1.8a38 1e01.4b.2.-1 1e9b.1.1.-3b
    1ea1.30.2.-1 1f00.8.1.8 1f10.6.1.8 1f20.8.1.8 1f30.8.1.8 1f40.6.1.8 1f51.4.2.8 1f60.8.1.8
    1f70.2.1.4a 1f72.4.1.56 1f76.2.1.64 1f78.2.1.80 1f7a.2.1.70 1f7c.2.1.7e 1fb0.2.1.8
    1fbe.1.1.-1c25 1fd0.2.1.8 1fe0.2.1.8 1fe5.1.1.7 214e.1.1.-1c 2170.10.1.-10 2184.1.1.-1
    24d0.1a.1.-1a 2c30.30.1.-30 2c61.1.1.-1 2c65.1.1.-2a2b 2c66.1.1.-2a28 2c68.3.2.-1
    2c73.1.1.-1 2c76.1.1.-1 2c81.32.2.-1 2cec.2.2.-1 2cf3.1.1.-1 2d00.26.1.-1c60 2d27.1.1.-1c60
    2d2d.1.1.-1c60 a641.17.2.-1 a681.e.2.-1 a723.7.2.-1 a733.1f.2.-1 a77a.2.2.-1 a77f.5.2.-1
    a78c.1.1.-1 a791.2.2.-1 a794.1.1.30 a797.a.2.-1 a7b5.8.2.-1 a7c8.2.2.-1 a7d1.1.1.-1
    a7d7.2.2.-1 a7f6.1.1.-1 ab53.1.1.-3a0 ab70.50.1.-97d0 ff41.1a.1.-20 10428.28.1.-28
    104d8.24.1.-28 10597.b.1.-27 105a3.f.1.-27 105b3.7.1.-27 105bb.2.1.-27 10cc0.33.1.-40
    118c0.20.1.-20 16e60.20.1.-20 1e922.22.1.-22"
  )).filterMap (CaseRun.ofText <| String.ofList ·)

/-- Letters whose capital is written with several: the letter, then those. -/
def longCapitals : List (List Nat) := (words (String.toList
  "df.53.53 149.2bc.4e 1f0.4a.30c 390.399.308.301 3b0.3a5.308.301 587.535.552 1e96.48.331
    1e97.54.308 1e98.57.30a 1e99.59.30a 1e9a.41.2be 1f50.3a5.313 1f52.3a5.313.300
    1f54.3a5.313.301 1f56.3a5.313.342 1f80.1f08.399 1f81.1f09.399 1f82.1f0a.399 1f83.1f0b.399
    1f84.1f0c.399 1f85.1f0d.399 1f86.1f0e.399 1f87.1f0f.399 1f88.1f08.399 1f89.1f09.399
    1f8a.1f0a.399 1f8b.1f0b.399 1f8c.1f0c.399 1f8d.1f0d.399 1f8e.1f0e.399 1f8f.1f0f.399
    1f90.1f28.399 1f91.1f29.399 1f92.1f2a.399 1f93.1f2b.399 1f94.1f2c.399 1f95.1f2d.399
    1f96.1f2e.399 1f97.1f2f.399 1f98.1f28.399 1f99.1f29.399 1f9a.1f2a.399 1f9b.1f2b.399
    1f9c.1f2c.399 1f9d.1f2d.399 1f9e.1f2e.399 1f9f.1f2f.399 1fa0.1f68.399 1fa1.1f69.399
    1fa2.1f6a.399 1fa3.1f6b.399 1fa4.1f6c.399 1fa5.1f6d.399 1fa6.1f6e.399 1fa7.1f6f.399
    1fa8.1f68.399 1fa9.1f69.399 1faa.1f6a.399 1fab.1f6b.399 1fac.1f6c.399 1fad.1f6d.399
    1fae.1f6e.399 1faf.1f6f.399 1fb2.1fba.399 1fb3.391.399 1fb4.386.399 1fb6.391.342
    1fb7.391.342.399 1fbc.391.399 1fc2.1fca.399 1fc3.397.399 1fc4.389.399 1fc6.397.342
    1fc7.397.342.399 1fcc.397.399 1fd2.399.308.300 1fd3.399.308.301 1fd6.399.342
    1fd7.399.308.342 1fe2.3a5.308.300 1fe3.3a5.308.301 1fe4.3a1.313 1fe6.3a5.342
    1fe7.3a5.308.342 1ff2.1ffa.399 1ff3.3a9.399 1ff4.38f.399 1ff6.3a9.342 1ff7.3a9.342.399
    1ffc.3a9.399 fb00.46.46 fb01.46.49 fb02.46.4c fb03.46.46.49 fb04.46.46.4c fb05.53.54
    fb06.53.54 fb13.544.546 fb14.544.535 fb15.544.53b fb16.54e.546 fb17.544.53d"
  )).map (hexNumbers <| String.ofList ·)

def capital (c : Char) : List Char :=
  if c.toNat < 128 then [c.toUpper]
  else
    match longCapitals.find? (·.head? == some c.toNat) with
    | some codes => codes.tail.map Char.ofNat
    | none => [(caseRuns.findSome? (·.capital? c.toNat)).getD c]

/-- The text in capital letters. -/
def uppercase (s : String) : String := String.ofList (s.toList.flatMap capital)

end LiveSvg.Text
