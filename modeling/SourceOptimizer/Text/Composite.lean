import SourceOptimizer.Text.Basic

/-! Composite characters: a character that means the same as two in a row. Korean syllables are composed by
arithmetic, all others are listed. -/
namespace SourceOptimizer.Text

def composites : Array Nat := List.toArray <| List.flatMap ofString [
  "ÀÀÁÁÂÂÃÃĀĀĂĂȦȦÄÄẢẢÅÅǍǍȀȀȂȂẠẠḀḀĄĄḂḂḄḄḆḆĆĆĈĈĊĊČČÇÇḊḊĎĎḌḌḐḐḒḒḎḎÈÈÉÉÊÊẼẼĒĒĔĔĖĖËË",
  "ẺẺĚĚȄȄȆȆẸẸȨȨĘĘḘḘḚḚḞḞǴǴĜĜḠḠĞĞĠĠǦǦĢĢĤĤḢḢḦḦȞȞḤḤḨḨḪḪÌÌÍÍÎÎĨĨĪĪĬĬİİÏÏỈỈǏǏȈȈȊȊỊỊĮĮ",
  "ḬḬĴĴḰḰǨǨḲḲĶĶḴḴĹĹĽĽḶḶĻĻḼḼḺḺḾḾṀṀṂṂǸǸŃŃÑÑṄṄŇŇṆṆŅŅṊṊṈṈÒÒÓÓÔÔÕÕŌŌŎŎȮȮÖÖỎỎŐŐǑǑȌȌȎȎ",
  "ƠƠỌỌǪǪṔṔṖṖŔŔṘṘŘŘȐȐȒȒṚṚŖŖṞṞŚŚŜŜṠṠŠŠṢṢȘȘŞŞṪṪŤŤṬṬȚȚŢŢṰṰṮṮÙÙÚÚÛÛŨŨŪŪŬŬÜÜỦỦŮŮŰŰǓǓ",
  "ȔȔȖȖƯƯỤỤṲṲŲŲṶṶṴṴṼṼṾṾẀẀẂẂŴŴẆẆẄẄẈẈẊẊẌẌỲỲÝÝŶŶỸỸȲȲẎẎŸŸỶỶỴỴŹŹẐẐŻŻŽŽẒẒẔẔààááââããāā",
  "ăăȧȧääảảååǎǎȁȁȃȃạạḁḁąąḃḃḅḅḇḇććĉĉċċččççḋḋďďḍḍḑḑḓḓḏḏèèééêêẽẽēēĕĕėėëëẻẻěěȅȅȇȇẹẹ",
  "ȩȩęęḙḙḛḛḟḟǵǵĝĝḡḡğğġġǧǧģģĥĥḣḣḧḧȟȟḥḥḩḩḫḫẖẖììííîîĩĩīīĭĭïïỉỉǐǐȉȉȋȋịịįįḭḭĵĵǰǰḱḱǩǩ",
  "ḳḳķķḵḵĺĺľľḷḷļļḽḽḻḻḿḿṁṁṃṃǹǹńńññṅṅňňṇṇņņṋṋṉṉòòóóôôõõōōŏŏȯȯööỏỏőőǒǒȍȍȏȏơơọọǫǫṕṕ",
  "ṗṗŕŕṙṙřřȑȑȓȓṛṛŗŗṟṟśśŝŝṡṡššṣṣșșşşṫṫẗẗťťṭṭțțţţṱṱṯṯùùúúûûũũūūŭŭüüủủůůűűǔǔȕȕȗȗưư",
  "ụụṳṳųųṷṷṵṵṽṽṿṿẁẁẃẃŵŵẇẇẅẅẘẘẉẉẋẋẍẍỳỳýýŷŷỹỹȳȳẏẏÿÿỷỷẙẙỵỵźźẑẑżżžžẓẓẕẕẦẦẤẤẪẪẨẨǞǞǺǺ",
  "ǼǼǢǢḈḈỀỀẾẾỄỄỂỂḮḮỒỒỐỐỖỖỔỔṌṌȬȬṎṎȪȪǾǾǛǛǗǗǕǕǙǙầầấấẫẫẩẩǟǟǻǻǽǽǣǣḉḉềềếếễễểểḯḯồồốốỗỗ",
  "ổổṍṍȭȭṏṏȫȫǿǿǜǜǘǘǖǖǚǚẰẰẮẮẴẴẲẲằằắắẵẵẳẳḔḔḖḖḕḕḗḗṐṐṒṒṑṑṓṓṤṤṥṥṦṦṧṧṸṸṹṹṺṺṻṻẛẛỜỜỚỚỠỠ",
  "ỞỞỢỢờờớớỡỡởởợợỪỪỨỨỮỮỬỬỰỰừừứứữữửửựựǮǮǬǬǭǭǠǠǡǡḜḜḝḝȰȰȱȱǯǯᾺᾺΆΆᾹᾹᾸᾸἈἈἉἉᾼᾼῈῈΈΈἘἘἙἙ",
  "ῊῊΉΉἨἨἩἩῌῌῚῚΊΊῙῙῘῘΪΪἸἸἹἹῸῸΌΌὈὈὉὉῬῬῪῪΎΎῩῩῨῨΫΫὙὙῺῺΏΏὨὨὩὩῼῼᾴᾴῄῄὰὰάάᾱᾱᾰᾰἀἀἁἁᾶᾶᾳᾳ",
  "ὲὲέέἐἐἑἑὴὴήήἠἠἡἡῆῆῃῃὶὶίίῑῑῐῐϊϊἰἰἱἱῖῖὸὸόόὀὀὁὁῤῤῥῥὺὺύύῡῡῠῠϋϋὐὐὑὑῦῦὼὼώώὠὠὡὡῶῶῳῳ",
  "ῒῒΐΐῗῗῢῢΰΰῧῧῴῴϓϓϔϔЇЇӐӐӒӒЃЃЀЀӖӖЁЁӁӁӜӜӞӞЍЍӢӢЙЙӤӤЌЌӦӦӮӮЎЎӰӰӲӲӴӴӸӸӬӬӑӑӓӓѓѓѐѐӗӗёё",
  "ӂӂӝӝӟӟѝѝӣӣййӥӥќќӧӧӯӯўўӱӱӳӳӵӵӹӹӭӭїїѶѶѷѷӚӚӛӛӪӪӫӫآآأأإإؤؤئئۂۂۓۓۀۀऩऩऱऱऴऴোোৌৌୋୋୈୈ",
  "ୌୌஔஔொொௌௌோோైైೀೀೊೊೇೇೈೈೋೋൊൊൌൌോോේේොොෞෞෝෝဦဦᬆᬆᬈᬈᬊᬊᬌᬌᬎᬎᬒᬒᬻᬻᬽᬽᭀᭀᭁᭁᭃᭃḸḸḹḹṜṜṝṝṨṨṩṩẬẬẶẶ",
  "ậậặặỆỆệệỘỘộộἂἂἄἄἆἆᾀᾀἃἃἅἅἇἇᾁᾁᾂᾂᾃᾃᾄᾄᾅᾅᾆᾆᾇᾇἊἊἌἌἎἎᾈᾈἋἋἍἍἏἏᾉᾉᾊᾊᾋᾋᾌᾌᾍᾍᾎᾎᾏᾏἒἒἔἔἓἓἕἕ",
  "ἚἚἜἜἛἛἝἝἢἢἤἤἦἦᾐᾐἣἣἥἥἧἧᾑᾑᾒᾒᾓᾓᾔᾔᾕᾕᾖᾖᾗᾗἪἪἬἬἮἮᾘᾘἫἫἭἭἯἯᾙᾙᾚᾚᾛᾛᾜᾜᾝᾝᾞᾞᾟᾟἲἲἴἴἶἶἳἳἵἵἷἷ",
  "ἺἺἼἼἾἾἻἻἽἽἿἿὂὂὄὄὃὃὅὅὊὊὌὌὋὋὍὍὒὒὔὔὖὖὓὓὕὕὗὗὛὛὝὝὟὟὢὢὤὤὦὦᾠᾠὣὣὥὥὧὧᾡᾡᾢᾢᾣᾣᾤᾤᾥᾥᾦᾦᾧᾧὪὪ",
  "ὬὬὮὮᾨᾨὫὫὭὭὯὯᾩᾩᾪᾪᾫᾫᾬᾬᾭᾭᾮᾮᾯᾯᾲᾲῂῂῲῲᾷᾷῇῇῷῷゔゔががぎぎぐぐげげごござざじじずずぜぜぞぞだだぢぢづづででどどばばぱぱびび",
  "ぴぴぶぶぷぷべべぺぺぼぼぽぽゞゞヴヴガガギギググゲゲゴゴザザジジズズゼゼゾゾダダヂヂヅヅデデドドババパパビビピピブブププベベペペボボポポヷヷヸヸヹヹヺヺ",
  "ヾヾ𑂚𑂚𑂜𑂜𑂫𑂫𑄮𑄮𑄯𑄯𑍋𑍋𑍌𑍌𑒼𑒼𑒻𑒻𑒾𑒾𑖺𑖺𑖻𑖻𑤸𑤸"]

def placeOf (a b : Nat) : Nat → Nat → Nat → Nat
  | 0, lo, _ => lo
  | fuel + 1, lo, hi =>
    if lo < hi then
      let mid := (lo + hi) / 2
      let x := composites.getD (3 * mid) 0
      if x < a || (x == a && composites.getD (3 * mid + 1) 0 < b) then placeOf a b fuel (mid + 1) hi
      else placeOf a b fuel lo mid
    else lo

def listed? (a b : Nat) : Option Nat :=
  let i := placeOf a b composites.size 0 (composites.size / 3)
  if composites[3 * i]? == some a && composites[3 * i + 1]? == some b then composites[3 * i + 2]? else none

def listedParts? (c : Nat) : Nat → Nat → Option (Nat × Nat)
  | 0, _ => none
  | fuel + 1, i =>
    if composites[3 * i + 2]? == some c then some (composites.getD (3 * i) 0, composites.getD (3 * i + 1) 0)
    else listedParts? c fuel (i + 1)

/-! ## Korean syllables

A syllable has a leading consonant, a vowel and perhaps a trailing consonant; all combinations stand in a row. -/

def firstSyllable : Nat := 0xac00
def firstLeading : Nat := 0x1100
def firstVowel : Nat := 0x1161
/-- The place before the first trailing consonant, which means that there is none. -/
def noTrailing : Nat := 0x11a7
def leadings : Nat := 19
def vowels : Nat := 21
def trailings : Nat := 28

def isSyllable (c : Nat) : Bool := firstSyllable ≤ c && c < firstSyllable + leadings * vowels * trailings

def syllableParts (c : Nat) : List Nat :=
  let n := c - firstSyllable
  let pair := [firstLeading + n / (vowels * trailings), firstVowel + n % (vowels * trailings) / trailings]
  if n % trailings == 0 then pair else pair ++ [noTrailing + n % trailings]

/-- A leading consonant and a vowel, or a syllable without trailing consonant and one. -/
def syllable? (a b : Nat) : Option Nat :=
  if firstLeading ≤ a && a < firstLeading + leadings && firstVowel ≤ b && b < firstVowel + vowels then
    some (firstSyllable + ((a - firstLeading) * vowels + (b - firstVowel)) * trailings)
  else if isSyllable a && (a - firstSyllable) % trailings == 0 && noTrailing < b && b < noTrailing + trailings then
    some (a + (b - noTrailing))
  else none

def composite? (a b : Nat) : Option Nat := (syllable? a b).or (listed? a b)

end SourceOptimizer.Text
