import CommandShell.Text

/-!
# Character categories

A coarse division of all characters, taken from the general categories of the Unicode standard
(version 14). It decides which characters belong to words, which may be shown as they are, and
which can stand in a name.
-/

namespace CommandShell

/-- The kinds of characters that the shell tells apart. -/
inductive Category where
  /-- letters of every sort -/
  | letter
  /-- marks that combine with the character before -/
  | mark
  /-- decimal digits -/
  | digit
  /-- letter-like numerals, such as Roman ones -/
  | numeral
  /-- other numbers, such as superscripts and fractions -/
  | number
  /-- connecting punctuation, such as the underscore -/
  | connector
  /-- all other visible characters -/
  | sign
  /-- separators, control and format characters, and code points without a character -/
  | hidden
deriving DecidableEq, Repr

namespace Category

/-- The category with an initial; that of numerals is the one of Roman ones. -/
def ofInitial : Char → Category
  | 'l' => .letter
  | 'm' => .mark
  | 'd' => .digit
  | 'r' => .numeral
  | 'n' => .number
  | 'c' => .connector
  | 's' => .sign
  | _ => .hidden

/-- All code points in order, in runs of one category: the length of each run and the initial of
its category. The last run has no end. -/
def lengths : List String := [
  "33h15s10d7s26l4s1c1s26l4s34h9s1l2s1h4s2n1s1l3s1n1l1s3n1s23l1s31l1s458l4s12l14s5l7s1l1s1l17s",
  "112m5l1s2l2h4l1s1l4h2s1l1s3l1h1l1h20l1h83l1s139l1s5m2s166l1h38l2h1l6s41l2s2h3s1h45m1s1m1s2m1s",
  "2m1s1m8h27l4h4l2s17h10s11m1s1h3s43l21m10d4s2l1m99l1s1l7m1h1s6m2l2m1s4m2l10d3l2s1l14s2h1l1m30l",
  "27m2h89l11m1l14h10d33l9m2l4s1l2h1m2s22l4m1l9m1l3m1l5m2h15s1h25l3m2h1s1h11l5h24l1s6l9h8m42l24m",
  "1h33m54l3m1l18m1l7m10l2m2s10d1s16l3m1h8l2h2l2h22l1h7l1h1l3h4l2h1m1l7m2h2m2h3m1l8h1m4h2l1h3l2m",
  "2h10d2l2s6n2s1l1s1m2h3m1h6l4h2l2h22l1h7l1h2l1h2l1h2l2h1m1h5m4h2m2h3m3h1m7h4l1h1l7h10d2m3l1m1s",
  "10h3m1h9l1h3l1h22l1h7l1h2l1h5l2h1m1l8m1h3m1h3m2h1l15h2l2m2h10d2s7h1l6m1h3m1h8l2h2l2h22l1h7l1h",
  "2l1h5l2h1m1l7m2h2m2h3m7h3m4h2l1h3l2m2h10d1s1l6n10h1m1l1h6l3h3l1h4l3h2l1h1l1h2l3h2l3h3l3h12l4h",
  "5m3h3m1h4m2h1l6h1m14h10d3n8s5h5m8l1h3l1h23l1h16l2h1m1l7m1h3m1h4m7h2m1h3l2h1l2h2l2m2h10d7h1s7n",
  "1s1l3m1s8l1h3l1h23l1h10l1h5l2h1m1l7m1h3m1h4m7h2m6h2l1h2l2m2h10d1h2l13h4m9l1h3l1h41l2m1l7m1h3m",
  "1h4m1l1s4h3l1m7n3l2m2h10d9n1s6l1h3m1h18l3h24l1h9l1h1l2h7l3h1m4h6m1h1m1h8m6h10d2h2m1s12h48l1m2l",
  "7m4h1s7l8m1s10d2s37h2l1h1l1h5l1h24l1h1l1h10l1m2l9m1l2h5l1h1l1h6m2h10d2h4l32h1l23s2m6s10d10n1s",
  "1m1s1m1s1m4s2m8l1h36l4h20m1s2m5l11m1h36m1h8s1m6s1h13s37h43l20m1l10d6s6l4m4l3m1l3m2l7m3l4m13l",
  "12m1l1m10d4m2s38l1h1l5h1l2h43l1s333l1h4l2h7l1h1l1h4l2h41l1h4l2h33l1h4l2h7l1h1l1h4l2h15l1h57l1h",
  "4l2h67l2h3m9s20n3h16l10s6h86l2h6l2h1s620l2s17l1h26l2s3h75l3s3r8l7h18l4m9h19l3m2s9h18l2m12h13l",
  "1h3l1h2m12h52l32m3s1l4s1l1m2h10d6h10n6h11s3m1h1m10d6h89l7h5l2m34l1m1l5h70l10h31l1h12m4h12m4h1s",
  "3h2s10d30l2h5l11h44l4h26l6h10d1n3h34s23l5m2h2s53l10m1h29m2h1m10d6h10d6h7s1l6s2h14m1s16m49h5m",
  "47l17m8l3h10d17s9m11s1h3m30l13m2l10d44l14m8h4s36l20m3h5s10d3h3l10d36l2s9l7h43l2h3l8s8h3m1s21m",
  "4l1m6l1m2l3m1l5h192l64m278l2h6l2h38l2h6l2h8l1h1l1h1l1h1l1h31l2h53l1h7l1s1l3s3l1h7l3s4l2h6l1h3s",
  "13l3s2h3l1h7l2s17h24s8h15s2c19s1c10s17h1n1l2h6n5s1l10n5s1h13l3h33s15h13m4s1m3s12m15h2s1l4s1l2s",
  "10l1s1l3s5l6s1l1s1l1s1l1s4l1s11l2s4l5s5l4s1l1s16n35r2l4r1n2s4h663s25h11s21h60n78s22n630s30n",
  "992s2h32s1h105s229l6s4l3m2l5h4s1n2s38l1h1l5h1l2h56l7h1l1s14h1m23l9h7l1h7l1h7l1h7l1h7l1h7l1h7l",
  "1h7l1h32m47s1l46s34h26s1h89s12h214s26h12s5h4s2l1r25s9r6m1s5l2s3r2l3s1h86l2h2m2s3l1s90l1s4l5h",
  "43l1h94l1h2s4n10s32l36s12h16l31s1h10n30s8n1s15n32s10n39s15n320s6592l64s22157l3h55s9h46l2s269l",
  "3s16l10d2l20h47l1m4s10m1s31l2m70l10r2m6s8h23s9l2s103l2s64l5h2l1h1l1h5l24h16l1m3l1m4l1m23l5m4s",
  "1m3h6n4s6h52l4s8h2m50l18m8h2s10d6h18m6l3s1l1s2l1m10d28l8m2s23l13m11h1s29l3h4m47l14m13s1h1l10d",
  "4h2s5l1m10l10d5l1h41l14m9h3l1m8l2m2h10d2h4s23l3s1l3m50l1m1l3m2l2m5l2m1l1m1l24h3l2s11l5m2s3l2m",
  "10h6l2h6l2h6l9h7l1h7l1h43l1s14l2s4h115l8m1s2m2h10d6h11172l12h23l4h49l8452h366l2h106l38h7l12h5l",
  "5h1l1m10l1s13l1h5l1h1l1h2l1h2l1h108l17s16h363l18s64l2h54l7h1s32h12l4s16m10s6h16m3s2c24s3c3s1h",
  "19s1h4s4h5l1h135l4h15s10d7s26l4s1c1s26l11s89l3h6l2h6l2h6l2h3l3h7s1h7s13h2s2h12l1h26l1h19l1h2l",
  "1h15l2h14l34h123l5h3s4h45n3h9s53r4n17s2n3s1h13s3h1s47h45s1m130h29l3h49l15h1m27n4h32l4n9h20l1r",
  "8l1r5h38l5m5h30l1h1s36l4h8l1s5r42h158l2h10d6h36l4h36l4h40l8h52l11h1s11l1h15l1h7l1h2l1h11l1h15l",
  "1h7l1h2l67h311l9h22l10h8l24h6l1h42l1h9l69h6l2h1l1h44l1h2l3h1l2h23l1h1s8n23l2s7n31l8h9n48h19l1h",
  "2l5h5n22l6n3h1s26l5h1s64h56l4h2n2l16n2h46n1l3m1h2m5h4m4l1h3l1h29l2h3m4h1m9n7h9s7h29l2n1s29l3n",
  "32h8l1s28l2m4h5n7s9h54l3h7s22l2h8n19l5h8n18l7h4s12h7n80h73l55h51l13h51l7h6n36l4m8h10d294h31n1h",
  "42l1h2m1s2h2l78h29l10n1l8h22l11m4n5s22h18l4m4s38h21l7n20h23l9h3m53l15m7s4h20n10d1m2l2m1l9h4m",
  "45l11m2s1h4s1m13h25l7h10d6h3m36l14m1h10d4s1l2m1l8h35l1m2s1l9h3m48l14m4l4s4m1s2m10d1l1s1l3s1h",
  "20n11h18l1h25l12m6s1m65h7l1h1l1h4l1h15l1h10l1s6h47l12m5h10d6h4m1h8l2h2l2h22l1h7l1h2l1h5l1h2m1l",
  "7m2h2m2h3m2h1l6h1m5h5l2m2h7m3h5m139h53l18m4l5s10d2s1h1s1m3l30h48l20m2l1s1l8h10d166h47l7m2h9m",
  "23s4l2m34h48l17m3s1l11h10d6h13s19h43l13m1l1s6h10d54h27l2h15m4h10d2n4s7l185h44l15m1s100h64l10d",
  "9n12h8l2h1l2h8l1h2l1h24l6m1h2m2h4m1l1m1l2m3s9h10d70h8l2h39l7m2h7m1l1s1l1m27h1l10m40l7m1l4m8s1m",
  "8h1l11m46l16m3s1l5s13h73l263h9l1h37l8m1h8m1l5s10h10d19n3h2s30l2h22m1h14m73h7l1h2l1h38l6m3h1m1h",
  "2m1h7m1l1m8h10d6h6l1h2l1h32l5m1h2m1h5m1l7h10d310h19l4m2s183h1l15h21n29s13h1s922l102h111r1h5s",
  "11h196l2636h97l2s13h1071l4049h583l8633h569l7h31l1h10d4h2s79l1h10d6h30l2h5m1s10h48l7m9s4l2s10h",
  "10d1h7n1h21l5h19l688h64l23n4s101h75l4h1m1l55m7h4m13l64h2l1s1l1m11h2m14h6136l8h1238l42h9l8935h",
  "4l1h7l1h2l1h291l45h3l17h4l8h396l2308h107l5h13l3h9l7h10l2h1s2m1s4704h46m2h23m9h116s60h246s10h",
  "39s2h60s5m3s6m8h8m2s7m30s4m61s21h66s3m1s154h20n12h87s9h25n135h85l1h71l1h2l2h1l2h2l2h4l1h12l1h",
  "1l1h7l1h65l1h4l2h8l1h7l1h28l1h4l1h5l1h1l3h7l1h340l2h25l1s25l1s31l1s25l1s31l1s25l1s31l1s25l1s",
  "31l1s25l1s8l2h50d512s55m4s50m8s1m14s1m7s15h5m1h15m1104h31l225h7m1h17m2h7m1h2m1h5m213h45l3h7m7l",
  "2h10d4h1l1s320h30l1m17h44l4m10d5h1s1248h7l1h4l1h2l1h15l1h197l2h9n7m41h68l7m1l4h10d4h2s785h59n",
  "1s3n1s4n76h45n1s15n194h4l1h27l1h2l1h1l2h1l1h10l1h4l1h1l1h1l6h1l4h1l1h1l1h1l1h3l1h2l1h1l2h1l1h",
  "1l1h1l1h1l1h1l1h2l1h1l2h4l1h7l1h4l1h4l1h1l1h10l1h17l5h3l1h5l1h17l52h2s270h44s4h100s12h15s2h15s",
  "1h15s1h37s10h13n161s56h29s13h44s4h9s7h2s14h6s154h984s5h16s3h13s3h116s12h89s7h12s4h1s15h12s4h",
  "56s8h10s6h40s8h30s2h2s78h340s12h14s2h5s3h5s3h7s9h29s3h11s5h6s10h10s6h8s8h7s9h147s1h55s37h10d",
  "1030h42720l32h4153l7h222l2h5762l14h7473l3103h542l1506h4939l716213h240mh"]

/-- Where the category changes: each entry holds from its code point up to the next entry. -/
def runs : Array (Nat × Category) :=
  let read : Array (Nat × Category) × Nat × Nat → Char → Array (Nat × Category) × Nat × Nat
    | (runs, first, length), c =>
      if c.isDigit then (runs, first, 10 * length + (c.toNat - '0'.toNat))
      else (runs.push (first, ofInitial c), first + length, 0)
  ((lengths.flatMap String.toList).foldl read (#[], 0, 0)).1

/-- The entry of the run that contains `code`, looked for between the indices `low` and `high`;
`steps` bounds how often the interval is halved. -/
def search (code : Nat) : (steps low high : Nat) → Category
  | 0, low, _ => (runs[low]?.map (·.2)).getD .hidden
  | steps + 1, low, high =>
    if high ≤ low + 1 then (runs[low]?.map (·.2)).getD .hidden
    else
      let middle := (low + high) / 2
      match runs[middle]? with
      | some (first, _) =>
        if first ≤ code then search code steps middle high else search code steps low middle
      | none => .hidden

def ofAscii (c : Char) : Category :=
  if c.isAlpha then .letter
  else if c.isDigit then .digit
  else if c = '_' then .connector
  else if c.toNat ≤ 0x20 || c.toNat = 0x7f then .hidden
  else .sign

def ofChar (c : Char) : Category :=
  if c.toNat < 0x80 then ofAscii c else search c.toNat 16 0 runs.size

end Category

namespace Text

/-- Letters and numbers of every script, and the underscore. -/
def isWordChar (c : Char) : Bool :=
  c = '_' || match Category.ofChar c with
    | .letter | .digit | .numeral | .number => true
    | _ => false

/-- Whether a character is shown as it is inside a quotation. -/
def isPrintable (c : Char) : Bool := c = ' ' || Category.ofChar c ≠ .hidden

/-- Characters that can begin a name although their category does not say so. -/
def extraNameStarts : List Nat := [0x1885, 0x1886, 0x2118, 0x212e]

/-- Characters that can continue a name although their category does not say so. -/
def extraNameParts : List Nat :=
  [0xb7, 0x387, 0x1369, 0x136a, 0x136b, 0x136c, 0x136d, 0x136e, 0x136f, 0x1370, 0x1371, 0x19da,
    0x2118, 0x212e]

/-- Letters that can stand nowhere in a name, since they are compositions of other characters. -/
def neverInNames : List Nat :=
  [0x37a, 0x2e2f, 0xfc5e, 0xfc5f, 0xfc60, 0xfc61, 0xfc62, 0xfc63, 0xfdfa, 0xfdfb, 0xfe70, 0xfe72,
    0xfe74, 0xfe76, 0xfe78, 0xfe7a, 0xfe7c, 0xfe7e]

/-- Letters that can continue a name but not begin one. -/
def neverNameStarts : List Nat := [0xe33, 0xeb3, 0xff9e, 0xff9f]

def isNameStart (c : Char) : Bool :=
  c = '_' || extraNameStarts.contains c.toNat ||
    ((Category.ofChar c = .letter || Category.ofChar c = .numeral) &&
      !neverInNames.contains c.toNat && !neverNameStarts.contains c.toNat)

def isNamePart (c : Char) : Bool :=
  extraNameParts.contains c.toNat ||
    (match Category.ofChar c with
      | .letter | .numeral | .mark | .digit | .connector => true
      | _ => false) && !neverInNames.contains c.toNat

def isName : Text → Bool
  | [] => false
  | c :: rest => isNameStart c && rest.all isNamePart

end Text

end CommandShell
