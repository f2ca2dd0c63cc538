/-!
# Letter case

Lower and upper case of text. Names in queries and schemas are compared without regard to case, so
both maps cover every letter that has a partner. A map is a list of runs of code points that all
move by the same distance; the few letters whose upper case is longer than one character stand in a
table of their own.
-/

namespace QueryEquiv.Text

/-- Code points `first`, `first + step`, … up to `last`, all moved by `shift`. -/
structure CaseRun where
  first : Nat
  last : Nat
  step : Nat
  shift : Int

def CaseRun.covers (r : CaseRun) (n : Nat) : Bool :=
  r.first ≤ n && n ≤ r.last && (n - r.first) % r.step == 0

/-- Letters next to each other. -/
def CaseRun.block : Nat × Nat × Int → CaseRun
  | (first, last, shift) => ⟨first, last, 1, shift⟩

/-- Every other letter, with its partner next to it. -/
def CaseRun.alternating : Nat × Nat → CaseRun
  | (first, last) => ⟨first, last, 2, 1⟩

def CaseRun.single : Nat × Int → CaseRun
  | (n, shift) => ⟨n, n, 1, shift⟩

def lowerRuns : Array CaseRun :=
  #[(65,90,32), (192,214,32), (216,222,32), (393,394,205), (433,434,217), (904,906,37), (910,911,63), (913,929,32),
    (931,939,32), (1021,1023,-130), (1024,1039,80), (1040,1071,32), (1329,1366,48), (4256,4293,7264),
    (5024,5103,38864), (5104,5109,8), (7312,7354,-3008), (7357,7359,-3008), (7944,7951,-8), (7960,7965,-8),
    (7976,7983,-8), (7992,7999,-8), (8008,8013,-8), (8040,8047,-8), (8072,8079,-8), (8088,8095,-8), (8104,8111,-8),
    (8120,8121,-8), (8122,8123,-74), (8136,8139,-86), (8152,8153,-8), (8154,8155,-100), (8168,8169,-8),
    (8170,8171,-112), (8184,8185,-128), (8186,8187,-126), (8544,8559,16), (9398,9423,26), (11264,11311,48),
    (11390,11391,-10815), (65313,65338,32), (66560,66599,40), (66736,66771,40), (66928,66938,39), (66940,66954,39),
    (66956,66962,39), (66964,66965,39), (68736,68786,64), (71840,71871,32), (93760,93791,32), (125184,125217,34)].map .block ++
  #[(376,-121), (385,210), (390,206), (391,1), (395,1), (398,79), (399,202), (400,203), (401,1), (403,205), (404,207),
    (406,211), (407,209), (408,1), (412,211), (413,213), (415,214), (422,218), (423,1), (425,218), (428,1), (430,218),
    (431,1), (439,219), (440,1), (444,1), (452,2), (453,1), (455,2), (456,1), (458,2), (497,2), (502,-97), (503,-56),
    (544,-130), (570,10795), (571,1), (573,-163), (574,10792), (577,1), (579,-195), (580,69), (581,71), (886,1),
    (895,116), (902,38), (908,64), (975,8), (1012,-60), (1015,1), (1017,-7), (1018,1), (1216,15), (4295,7264),
    (4301,7264), (7838,-7615), (8025,-8), (8027,-8), (8029,-8), (8031,-8), (8124,-9), (8140,-9), (8172,-7), (8188,-9),
    (8486,-7517), (8490,-8383), (8491,-8262), (8498,28), (8579,1), (11360,1), (11362,-10743), (11363,-3814),
    (11364,-10727), (11373,-10780), (11374,-10749), (11375,-10783), (11376,-10782), (11378,1), (11381,1), (11506,1),
    (42877,-35332), (42891,1), (42893,-42280), (42922,-42308), (42923,-42319), (42924,-42315), (42925,-42305),
    (42926,-42308), (42928,-42258), (42929,-42282), (42930,-42261), (42931,928), (42948,-48), (42949,-42307),
    (42950,-35384), (42960,1), (42997,1)].map .single ++
  #[(256,302), (306,310), (313,327), (330,374), (377,381), (386,388), (416,420), (435,437), (459,475), (478,494),
    (498,500), (504,542), (546,562), (582,590), (880,882), (984,1006), (1120,1152), (1162,1214), (1217,1229),
    (1232,1326), (7680,7828), (7840,7934), (11367,11371), (11392,11490), (11499,11501), (42560,42604), (42624,42650),
    (42786,42798), (42802,42862), (42873,42875), (42878,42886), (42896,42898), (42902,42920), (42932,42946),
    (42951,42953), (42966,42968)].map .alternating

/-- Letters that are not the lower case of their upper case. -/
def upperExceptions : Array CaseRun := #[
  (181,743), (305,-232), (383,-300), (453,-1), (456,-1), (459,-1), (498,-1), (837,84), (962,-31), (976,-62),
  (977,-57), (981,-47), (982,-54), (1008,-86), (1009,-80), (1013,-96), (7296,-6254), (7297,-6253), (7298,-6244),
  (7299,-6242), (7300,-6242), (7301,-6243), (7302,-6236), (7303,-6181), (7304,35266), (7835,-59), (8126,-7205)].map .single

/-- Upper case undoes lower case, but for the exceptions. -/
def upperRuns : Array CaseRun :=
  upperExceptions ++ lowerRuns.map fun r ↦
    ⟨(r.first + r.shift).toNat, (r.last + r.shift).toNat, r.step, -r.shift⟩

/-- Letters whose upper case is written with several characters; a small iota below a letter follows it. -/
def upperExpansions : Array (Nat × List Nat) :=
  #[(8064, 7944), (8072, 7944), (8080, 7976), (8088, 7976), (8096, 8040), (8104, 8040)].flatMap
    (fun (small, capital) ↦ (Array.range 8).map fun i ↦ (small + i, [capital + i, 921])) ++ #[
  (223,[83,83]), (329,[700,78]), (496,[74,780]), (912,[921,776,769]), (944,[933,776,769]), (1415,[1333,1362]),
  (7830,[72,817]), (7831,[84,776]), (7832,[87,778]), (7833,[89,778]), (7834,[65,702]), (8016,[933,787]),
  (8018,[933,787,768]), (8020,[933,787,769]), (8022,[933,787,834]), (8114,[8122,921]), (8115,[913,921]),
  (8116,[902,921]), (8118,[913,834]), (8119,[913,834,921]), (8124,[913,921]), (8130,[8138,921]), (8131,[919,921]),
  (8132,[905,921]), (8134,[919,834]), (8135,[919,834,921]), (8140,[919,921]), (8146,[921,776,768]),
  (8147,[921,776,769]), (8150,[921,834]), (8151,[921,776,834]), (8162,[933,776,768]), (8163,[933,776,769]),
  (8164,[929,787]), (8166,[933,834]), (8167,[933,776,834]), (8178,[8186,921]), (8179,[937,921]), (8180,[911,921]),
  (8182,[937,834]), (8183,[937,834,921]), (8188,[937,921]), (64256,[70,70]), (64257,[70,73]), (64258,[70,76]),
  (64259,[70,70,73]), (64260,[70,70,76]), (64261,[83,84]), (64262,[83,84]), (64275,[1348,1350]), (64276,[1348,1333]),
  (64277,[1348,1339]), (64278,[1358,1350]), (64279,[1348,1341])]

def shiftBy (runs : Array CaseRun) (c : Char) : Char :=
  let n := c.toNat
  match runs.find? (·.covers n) with
  | some r => Char.ofNat (n + r.shift).toNat
  | none => c

def lowerChar (c : Char) : Char := if c.toNat < 128 then c.toLower else shiftBy lowerRuns c

def upperChars (c : Char) : List Char :=
  if c.toNat < 128 then [c.toUpper]
  else
    match upperExpansions.find? (·.1 == c.toNat) with
    | some (_, ns) => ns.map Char.ofNat
    | none => [shiftBy upperRuns c]

/-- Whether a letter comes in two cases. -/
def isCased (c : Char) : Bool := lowerChar c != c || upperChars c != [c]

/-- Lower case of a run of characters, given the character before it. A capital sigma that ends a
word becomes the final form of the small letter, and the dotted capital I keeps its dot. -/
def lowerChars : Option Char → List Char → List Char
  | _, [] => []
  | before, c :: rest =>
    let small :=
      if c.toNat == 931 then
        let ends := match rest with
          | [] => true
          | d :: _ => !isCased d
        if before.any isCased && ends then [Char.ofNat 962] else [Char.ofNat 963]
      else if c.toNat == 304 then ['i', Char.ofNat 775]
      else [lowerChar c]
    small ++ lowerChars (some c) rest

def lower (s : String) : String :=
  if s.toList.all (fun c ↦ c.toNat < 128) then s.map Char.toLower else String.ofList (lowerChars none s.toList)

def upper (s : String) : String :=
  if s.toList.all (fun c ↦ c.toNat < 128) then s.map Char.toUpper
  else String.ofList (s.toList.flatMap upperChars)

end QueryEquiv.Text
