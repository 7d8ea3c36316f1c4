import LiveSvg.Text.Ranges
/-!
Characters of identifiers: letters and the underscore first, then also digits and marks.
-/

namespace LiveSvg.Text

def identifierStarts : Runs := Runs.ofText
  "2a.0 a.0 4.0 5.16 1.1e 1.1c9 4.b e.4 7.0 1.0 81.4 1.1 3.2 1.0 6.0 1.2 1.0 1.13 1.52 1.8a
    8.a5 1.25 2.0 6.28 47.1a 4.3 2d.2a 23.1 1.62 1.0 f.1 7.1 a.2 2.0 10.0 1.1d 1d.58 b.0 18.20
    9.1 4.0 5.15 4.0 9.0 3.0 17.18 7.a 5.17 1.5 11.29 3a.35 3.0 12.0 7.9 f.f 4.7 2.1 2.15 1.6
    1.0 3.3 3.0 10.0 d.1 1.2 e.1 a.0 8.5 4.1 2.15 1.6 1.1 1.1 1.1 1f.3 1.0 13.2 10.8 1.2 1.15
    1.6 1.1 1.4 3.0 12.0 f.1 17.0 b.7 2.1 2.15 1.6 1.1 1.4 3.0 1e.1 1.2 f.0 11.0 1.5 3.2 1.3 3.1
    1.0 1.1 3.1 3.2 3.b 16.0 34.7 1.2 1.16 1.f 3.0 1a.2 2.0 2.1 1e.0 4.7 1.2 1.16 1.9 1.4 3.0
    1f.1 1.1 f.1 11.8 1.2 1.28 2.0 10.0 5.2 8.2 18.5 5.11 3.17 1.8 1.0 2.6 3a.2f 1.0 d.6 3a.1
    1.0 1.4 1.17 1.0 1.9 1.0 a.0 2.4 1.0 15.3 20.0 3f.7 1.23 1b.4 73.2a 14.0 10.5 4.3 3.0 3.1
    7.2 4.c c.0 11.25 1.0 5.0 2.2a 1.14c 1.3 2.6 1.0 1.3 2.28 1.3 2.20 1.3 2.6 1.0 1.3 2.e 1.38
    1.3 2.42 25.f 10.55 2.5 3.26b 2.10 1.19 5.4a 3.a 7.11 d.12 e.11 e.c 1.2 f.33 23.0 4.0 43.58
    7.28 1.0 5.45 a.1e 31.1d 2.4 b.2b 4.19 36.16 9.34 52.0 5d.2e 11.7 36.1d d.1 a.2b 1a.23 29.2
    a.23 2.8 7.2a 2.2 29.3 1.5 1.1 3.0 5.bf 40.115 2.5 2.25 2.5 2.7 1.0 1.0 1.0 1.1e 2.34 1.6
    1.0 3.2 1.6 3.3 2.5 4.c 5.2 1.6 74.0 d.0 10.c 65.0 4.0 2.9 1.0 2.5 6.0 1.0 1.0 1.f 2.3 5.4
    4.0 11.28 a77.e4 6.3 3.1 c.25 1.0 5.0 2.37 7.0 10.16 9.6 1.6 1.6 1.6 1.6 1.6 1.6 1.6 226.2
    19.8 7.4 2.4 4.55 6.2 1.59 1.3 5.2a 1.5d 11.1f 30.f 200.19bf 40.568c 43.2d 2.10c 3.f a.1
    14.2e 10.1e 2.4f 27.8 2.66 2.3f 5.1 1.0 1.4 18.f 1.2 1.3 1.16 1d.33 e.31 3e.5 3.0 1.1 b.1b
    a.16 19.1c 7.2e 1c.0 10.4 1.9 a.4 1.28 17.2 1.7 14.16 3.0 3.31 1.0 3.1 2.4 2.0 1.0 18.2 2.a
    7.2 c.5 2.5 2.5 9.6 1.6 1.2a 1.d 6.72 1d.2ba3 c.16 4.30 2104.16d 2.69 26.6 c.4 5.0 1.9 1.c
    1.4 1.0 1.1 1.1 1.6b 21.8a 6.d9 12.3f 2.35 28.9 77.0 1.0 3.0 1.0 1.0 1.0 1.7d 24.19 6.19
    b.37 2.1e 3.5 2.5 2.5 2.2 23.b 1.19 1.12 1.1 1.e 2.d 22.7a 45.34 10b.1c 3.30 2f.1f d.1d 5.25
    a.1d 2.23 4.7 1.4 2a.9d 12.23 4.23 4.27 8.33 c.a 1.e 1.6 1.1 1.a 1.e 1.6 1.1 43.136 9.15 a.7
    18.5 1.29 1.8 45.5 2.0 1.2b 1.1 3.0 2.16 a.16 9.1e 41.12 1.1 a.15 a.19 46.37 6.1 40.0 f.3
    1.2 1.1c 2a.1c 3.1c 23.7 1.1b 1b.35 a.15 a.12 d.11 6e.48 37.32 d.32 d.23 15c.29 6.1 4e.1c
    a.0 8.15 2a.11 2e.14 1b.16 c.34 39.1 2.0 d.2c 20.18 1a.23 1d.0 2.0 8.22 3.0 c.2f e.3 15.0
    1.0 23.11 1.18 54.6 1.0 1.3 1.e 1.9 7.2e 26.7 2.1 2.15 1.6 1.1 1.4 3.0 12.0 c.4 9e.34 12.3
    14.2 1e.2f 14.1 1.0 b8.2e 29.3 24.2f 14.0 3b.2a d.0 47.1a 25.6 b9.2b 74.3f 1f.7 2.0 2.7 1.1
    1.17 f.0 1.0 5e.7 2.26 10.0 1.0 1c.0 a.27 7.0 15.0 b.2d 13.0 12.48 107.8 1.24 11.0 31.1d
    70.6 1.1 1.25 15.0 19.5 1.1 1.1f e.0 147.12 bd.0 4f.399 66.6e 11.c3 a4c.60 f.42e fd1.246
    21b9.238 7.1e 11.4e 11.1d 12.2f 10.3 1f.14 5.12 2b0.3f 80.4a 5.0 42.c 40.1 1.0 1c.17f7 8.4d5
    2a.8 22e7.3 1.6 1.1 1.122 2d.2 11.3 8.18b 904.6a 5.c 3.8 7.9 1766.54 1.46 1.1 2.0 2.1 2.3
    1.b 1.0 1.6 1.40 1.3 2.7 1.6 1.1b 1.3 1.4 1.0 3.6 1.153 2.18 1.18 1.1e 1.18 1.1e 1.18 1.1e
    1.18 1.1e 1.18 1.7 734.1e 1e1.2c a.6 10.0 141.1d 12.2b 4f4.6 1.3 1.1 1.e 1.c4 3b.43 7.0
    4b4.3 1.1a 1.1 1.0 2.0 1.9 1.3 1.0 1.0 6.0 4.0 1.0 1.0 1.2 1.1 1.0 2.0 1.0 1.0 1.0 1.0 1.1
    1.0 2.3 1.6 1.3 1.3 1.0 1.9 1.10 5.2 1.4 1.10 1144.a6df 20.1038 7.dd 2.1681 e.1d30 c1f.21d
    5e2.134a"

def identifierParts : Runs := Runs.ofText
  "2a.0 a.0 1.0 2.0 5.16 1.1e 1.1c9 4.b e.4 7.0 1.0 11.74 1.1 3.2 1.0 6.4 1.0 1.13 1.52 1.8a
    1.4 2.a5 1.25 2.0 6.28 8.2c 1.0 1.1 1.1 1.0 8.1a 4.3 1d.a 5.49 4.65 1.7 2.9 1.12 2.0 10.3a
    2.64 e.35 4.0 2.0 2.2d 12.1b 4.a 5.17 1.5 9.49 1.80 2.9 1.12 1.7 2.1 2.15 1.6 1.0 3.3 2.8
    2.1 2.3 8.0 4.1 1.4 2.b a.0 1.0 2.2 1.5 4.1 2.15 1.6 1.1 1.1 1.1 2.0 1.4 4.1 2.2 3.0 7.3 1.0
    7.f b.2 1.8 1.2 1.15 1.6 1.1 1.4 2.9 1.2 1.2 2.0 f.3 2.9 9.6 1.2 1.7 2.1 2.15 1.6 1.1 1.4
    2.8 2.1 2.2 7.2 4.1 1.4 2.9 1.0 10.1 1.5 3.2 1.3 3.1 1.0 1.1 3.1 3.2 3.b 4.4 3.2 1.3 2.0 6.0
    e.9 10.c 1.2 1.16 1.f 2.8 1.2 1.3 7.1 1.2 2.0 2.3 2.9 10.3 1.7 1.2 1.16 1.9 1.4 2.8 1.2 1.3
    7.1 6.1 1.3 2.9 1.1 d.c 1.2 1.32 1.2 1.4 5.3 7.4 2.9 a.5 1.2 1.11 3.17 1.8 1.0 2.6 3.0 4.5
    1.0 1.7 6.9 2.1 d.39 5.e 1.9 27.1 1.0 1.4 1.17 1.0 1.16 2.4 1.0 1.5 2.9 2.3 20.0 17.1 6.9
    b.0 1.0 1.0 4.9 1.23 4.13 1.11 1.23 9.0 39.49 6.4d 2.25 1.0 5.0 2.2a 1.14c 1.3 2.6 1.0 1.3
    2.28 1.3 2.20 1.3 2.6 1.0 1.3 2.e 1.38 1.3 2.42 2.2 9.8 e.f 10.55 2.5 3.26b 2.10 1.19 5.4a
    3.a 7.15 9.15 b.13 c.c 1.2 1.1 c.53 3.0 4.1 2.9 21.2 1.a 6.58 7.2a 5.45 a.1e 1.b 4.b a.27
    2.4 b.2b 4.19 6.a 25.1b 4.3e 1.1c 2.a 6.9 d.0 8.d 1.f 31.4c 3.9 11.8 c.73 c.37 8.9 3.30 2.8
    7.2a 2.2 10.2 1.26 5.215 2.5 2.25 2.5 2.7 1.0 1.0 1.0 1.1e 2.34 1.6 1.0 3.2 1.6 3.3 2.5 4.c
    5.2 1.6 42.1 13.0 1c.0 d.0 10.c 33.c 4.0 3.b 11.0 4.0 2.9 1.0 2.5 6.0 1.0 1.0 1.f 2.3 5.4
    4.0 11.28 a77.e4 6.8 c.25 1.0 5.0 2.37 7.0 f.17 9.6 1.6 1.6 1.6 1.6 1.6 1.6 1.6 1.1f 205.2
    19.e 1.4 2.4 4.55 2.1 2.2 1.59 1.3 5.2a 1.5d 11.1f 30.f 200.19bf 40.568c 43.2d 2.10c 3.1b
    14.2f 4.9 1.72 25.8 2.66 2.3f 5.1 1.0 1.4 18.35 4.0 13.33 c.45 a.9 6.17 3.0 1.30 2.23 c.1c
    3.40 e.a 6.1e 1.36 9.d 2.9 6.16 3.48 18.2 2.f 2.4 a.5 2.5 2.5 9.6 1.6 1.2a 1.d 6.7a 1.1 2.9
    6.2ba3 c.16 4.30 2104.16d 2.69 26.6 c.4 5.b 1.c 1.4 1.0 1.1 1.1 1.6b 21.8a 6.d9 12.3f 2.35
    28.9 6.f 10.f 3.1 18.2 21.0 1.0 3.0 1.0 1.0 1.0 1.7d 13.9 7.19 4.0 1.19 b.58 3.5 2.5 2.5 2.2
    23.b 1.19 1.12 1.1 1.e 2.d 22.7a 45.34 88.0 82.1c 3.30 f.0 1f.1f d.1d 5.2a 5.1d 2.23 4.7 1.4
    2a.9d 2.9 6.23 4.23 4.27 8.33 c.a 1.e 1.6 1.1 1.a 1.e 1.6 1.1 43.136 9.15 a.7 18.5 1.29 1.8
    45.5 2.0 1.2b 1.1 3.0 2.16 a.16 9.1e 41.12 1.1 a.15 a.19 46.37 6.1 40.3 1.1 5.7 1.2 1.1c 2.2
    4.0 20.1c 3.1c 23.7 1.1d 19.35 a.15 a.12 d.11 6e.48 37.32 d.32 d.27 8.9 146.29 1.1 3.1 4e.1c
    a.0 8.20 1f.15 2a.14 1b.16 9.46 1f.f 9.3b 7.0 d.18 7.9 6.34 1.9 4.3 8.23 2.0 9.44 4.3 1.c
    1.0 23.11 1.24 6.0 41.6 1.0 1.3 1.e 1.9 7.3a 5.9 6.3 1.7 2.1 2.15 1.6 1.1 1.4 1.9 2.1 2.2
    2.0 6.0 5.6 2.6 3.4 8b.4a 5.9 4.3 1e.45 1.0 8.9 a6.35 2.8 17.5 22.40 3.0 b.9 26.38 7.9 36.1a
    2.e 4.9 6.6 b9.3a 65.49 15.7 2.0 2.7 1.1 1.1d 1.1 2.8 c.9 46.7 2.2d 2.7 1.1 1b.3e 8.0 8.49
    3.0 12.48 107.8 1.2c 1.8 f.9 18.1d 2.15 1.d 49.6 1.1 1.2b 3.0 1.1 1.8 8.9 6.5 1.1 1.24 1.1
    1.5 7.9 136.16 b9.0 4f.399 66.6e 11.c3 a4c.60 f.42e fd1.246 21b9.238 7.1e 1.9 6.4e 1.9 6.1d
    2.4 b.36 9.3 c.9 9.14 5.12 2b0.3f 80.4a 4.38 7.10 40.1 1.1 b.1 e.17f7 8.4d5 2a.8 22e7.3 1.6
    1.1 1.122 2d.2 11.3 8.18b 904.6a 5.c 3.8 7.9 3.1 1261.2d 2.16 21e.4 3.5 8.7 2.6 1e.3 94.2
    1bb.54 1.46 1.1 2.0 2.1 2.3 1.b 1.0 1.6 1.40 1.3 2.7 1.6 1.1b 1.3 1.4 1.0 3.6 1.153 2.18
    1.18 1.1e 1.18 1.1e 1.18 1.1e 1.18 1.1e 1.18 1.7 2.31 200.36 4.31 8.0 e.0 16.4 1.e 450.1e
    e1.6 1.10 2.6 1.1 1.4 d5.2c 3.d 2.9 4.0 141.1e 11.39 4e6.6 1.3 1.1 1.e 1.c4 b.6 29.4b 4.9
    4a6.3 1.1a 1.1 1.0 2.0 1.9 1.3 1.0 1.0 6.0 4.0 1.0 1.0 1.2 1.1 1.0 2.0 1.0 1.0 1.0 1.0 1.1
    1.0 2.3 1.6 1.3 1.3 1.0 1.9 1.10 5.2 1.4 1.10 d34.9 406.a6df 20.1038 7.dd 2.1681 e.1d30
    c1f.21d 5e2.134a aedb5.ef"

def isIdentifierStart (c : Char) : Bool :=
  if c.toNat < 128 then c.isAlpha || c == '_' else identifierStarts.contains c.toNat

def isIdentifierPart (c : Char) : Bool :=
  if c.toNat < 128 then c.isAlphanum || c == '_' else identifierParts.contains c.toNat

def isIdentifier : List Char → Bool
  | [] => false
  | c :: rest => isIdentifierStart c && rest.all isIdentifierPart

end LiveSvg.Text
