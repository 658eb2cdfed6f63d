import SourceOptimizer.Text.Basic
import SourceOptimizer.Text.Ranges

/-! Characters that are other characters in a special shape: wide and narrow forms, letters of mathematical
alphabets, ligatures, and ideographs that were counted twice. -/
namespace SourceOptimizer.Text

/-- Runs of characters in names that stand for one other each: first, last, and what the first stands for. -/
def shapeRuns : Array Nat := List.toArray <| mapOfSteps 0 [
  7475,7,71,116,3,626,741,3,107,156,3,1488,4098,5,4528,6,9,4361,1,20,4449,21,4,4395,52628,9,48,8,25,65,7,25,97,43,5,
  12490,5,4,12510,3,5,12520,15,5,4528,6,9,4361,4,5,4449,3,5,4455,3,5,4461,54313,25,65,1,25,97,1,25,65,1,6,97,2,17,105,
  1,25,65,1,25,97,14,3,78,2,7,83,1,3,97,4,6,104,2,10,112,1,25,65,1,25,97,4,3,68,3,7,74,2,6,83,2,25,97,4,3,68,2,4,73,6,
  6,83,2,25,97,1,25,65,1,25,97,1,25,65,1,25,97,1,25,65,1,25,97,1,25,65,1,25,97,1,25,65,1,25,97,1,25,65,1,25,97,5,16,
  913,2,6,931,2,24,945,8,16,913,2,6,931,2,24,945,8,16,913,2,6,931,2,24,945,8,16,913,2,6,931,2,24,945,8,16,913,2,6,931,
  2,24,945,12,9,48,1,9,48,1,9,48,1,9,48,1,9,48,5643,3,1603,29,3,1603,3523,9,48]

/-- What the ideographs from U+F900 on stand for; some stand for themselves. -/
def ideographs : Array Nat := List.toArray <| List.flatMap ofString [
  "豈更車賈滑串句龜龜契金喇奈懶癩羅蘿螺裸邏樂洛烙珞落酪駱亂卵欄爛蘭鸞嵐濫藍襤拉臘蠟廊朗浪狼郎來冷勞擄櫓爐盧老蘆虜路露魯",
  "鷺碌祿綠菉錄鹿論壟弄籠聾牢磊賂雷壘屢樓淚漏累縷陋勒肋凜凌稜綾菱陵讀拏樂諾丹寧怒率異北磻便復不泌數索參塞省葉說殺辰沈拾",
  "若掠略亮兩凉梁糧良諒量勵呂女廬旅濾礪閭驪麗黎力曆歷轢年憐戀撚漣煉璉秊練聯輦蓮連鍊列劣咽烈裂說廉念捻殮簾獵令囹寧嶺怜玲",
  "瑩羚聆鈴零靈領例禮醴隸惡了僚寮尿料樂燎療蓼遼龍暈阮劉杻柳流溜琉留硫紐類六戮陸倫崙淪輪律慄栗率隆利吏履易李梨泥理痢罹裏",
  "裡里離匿溺吝燐璘藺隣鱗麟林淋臨立笠粒狀炙識什茶刺切度拓糖宅洞暴輻行降見廓兀嗀﨎﨏塚﨑晴﨓﨔凞猪益礼神祥福靖精羽﨟蘒﨡",
  "諸﨣﨤逸都﨧﨨﨩飯飼館鶴郞隷侮僧免勉勤卑喝嘆器塀墨層屮悔慨憎懲敏既暑梅海渚漢煮爫琢碑社祉祈祐祖祝禍禎穀突節練縉繁署者",
  "臭艹艹著褐視謁謹賓贈辶逸難響頻恵𤋮舘﩮﩯並况全侀充冀勇勺喝啕喙嗢塚墳奄奔婢嬨廒廙彩徭惘慎愈憎慠懲戴揄搜摒敖晴朗望杖歹",
  "殺流滛滋漢瀞煮瞧爵犯猪瑱甆画瘝瘟益盛直睊着磌窱節类絛練缾者荒華蝹襁覆視調諸請謁諾諭謹變贈輸遲醙鉶陼難靖韛響頋頻鬒龜𢡊",
  "𢡄𣏕㮝䀘䀹𥉉𥳐𧻓齃龎"]

def moreIdeographs : Array Nat := List.toArray <| List.flatMap ofString [
  "丽丸乁𠄢你侮侻倂偺備僧像㒞𠘺免兔兤具𠔜㒹內再𠕋冗冤仌冬况𩇟凵刃㓟刻剆割剷㔕勇勉勤勺包匆北卉卑博即卽卿卿卿𠨬灰及叟𠭣叫",
  "叱吆咞吸呈周咢哶唐啓啣善善喙喫喳嗂圖嘆圗噑噴切壮城埴堍型堲報墬𡓤売壷夆多夢奢𡚨𡛪姬娛娧姘婦㛮㛼嬈嬾嬾𡧈寃寘寧寳𡬘寿将",
  "当尢㞁屠屮峀岍𡷤嵃𡷦嵮嵫嵼巡巢㠯巽帨帽幩㡢𢆃㡼庰庳庶廊𪎒廾𢌱𢌱舁弢弢㣇𣊸𦇚形彫㣣徚忍志忹悁㤺㤜悔𢛔惇慈慌慎慌慺憎憲憤",
  "憯懞懲懶成戛扝抱拔捐𢬌挽拼捨掃揤𢯱搢揅掩㨮摩摾撝摷㩬敏敬𣀊旣書晉㬙暑㬈㫤冒冕最暜肭䏙朗望朡杞杓𣏃㭉柺枅桒梅𣑭梎栟椔㮝",
  "楂榣槪檨𣚣櫛㰘次𣢧歔㱎歲殟殺殻𣪍𡴋𣫺汎𣲼沿泍汧洖派海流浩浸涅𣴞洴港湮㴳滋滇𣻑淹潮𣽞𣾎濆瀹瀞瀛㶖灊災灷炭𠔥煅𤉣熜𤎫爨爵",
  "牐𤘈犀犕𤜵𤠔獺王㺬玥㺸㺸瑇瑜瑱璅瓊㼛甤𤰶甾𤲒異𢆟瘐𤾡𤾸𥁄㿼䀈直𥃳𥃲𥄙𥄳眞真真睊䀹瞋䁆䂖𥐝硎碌磌䃣𥘦祖𥚚𥛅福秫䄯穀穊穏",
  "𥥼𥪧𥪧竮䈂𥮫篆築䈧𥲀糒䊠糨糣紀𥾆絣䌁緇縂繅䌴𦈨𦉇䍙𦋙罺𦌾羕翺者𦓚𦔣聠𦖨聰𣍟䏕育脃䐋脾媵𦞧𦞵𣎓𣎜舁舄辞䑫芑芋芝劳花芳芽",
  "苦𦬼若茝荣莭茣莽菧著荓菊菌菜𦰶𦵫𦳕䔫蓱蓳蔖𧏊蕤𦼬䕝䕡𦾱𧃒䕫虐虜虧虩蚩蚈蜎蛢蝹蜨蝫螆䗗蟡蠁䗹衠衣𧙧裗裞䘵裺㒻𧢮𧥦䚾䛇誠",
  "諭變豕𧲨貫賁贛起𧼯𠠄跋趼跰𠣞軔輸𨗒𨗭邔郱鄑𨜮鄛鈸鋗鋘鉼鏹鐕𨯺開䦕閷𨵷䧦雃嶲霣𩅅𩈚䩮䩶韠𩐊䪲𩒖頋頋頩𩖶飢䬳餩馧駂駾䯎𩬰",
  "鬒鱀鳽䳎䳭鵧𪃎䳸𪄅𪈎𪊑麻䵖黹黾鼅鼏鼖鼻𪘀"]

/-- Rows of other characters in names that stand for others: the first, and what each stands for. -/
def shapeWords : List (Nat × List Text) :=
  List.map (fun (first, words) => (first, (words.splitOn " ").map ofString)) [
  (170,"a"),(181,"μ"),(186,"o"),(306,"IJ ij"),(319,"L· l·"),(329,"ʼn"),(383,"s"),
  (452,"DŽ Dž dž LJ Lj lj NJ Nj nj"),(497,"DZ Dz dz"),(688,"h ɦ j r ɹ ɻ ʁ w y"),(736,"ɣ l s x ʕ"),(832,"̀ ́"),
  (835,"̓ ̈́"),(884,"ʹ"),(903,"·"),(976,"β θ Υ"),(981,"φ π"),(1008,"κ ρ ς"),(1012,"Θ ε"),(1017,"Σ"),(1415,"եւ"),
  (1653,"اٴ وٴ ۇٴ يٴ"),(2392,"क़ ख़ ग़ ज़ ड़ ढ़ फ़ य़"),(2524,"ড় ঢ়"),(2527,"য়"),(2611,"ਲ਼"),(2614,"ਸ਼"),
  (2649,"ਖ਼ ਗ਼ ਜ਼"),(2654,"ਫ਼"),(2908,"ଡ଼ ଢ଼"),(3635,"ํา"),(3763,"ໍາ"),(3804,"ຫນ ຫມ"),(3907,"གྷ"),(3917,"ཌྷ"),
  (3922,"དྷ"),(3927,"བྷ"),(3932,"ཛྷ"),(3945,"ཀྵ"),(3955,"ཱི"),(3957,"ཱུ ྲྀ ྲཱྀ ླྀ ླཱྀ"),(3969,"ཱྀ"),(3987,"ྒྷ"),
  (3997,"ྜྷ"),(4002,"ྡྷ"),(4007,"ྦྷ"),(4012,"ྫྷ"),(4025,"ྐྵ"),(4348,"ნ"),(7468,"A Æ B"),(7472,"D E Ǝ"),
  (7484,"O Ȣ P R T U W a ɐ ɑ ᴂ b d e ə ɛ ɜ g"),(7503,"k m ŋ o ɔ ᴖ ᴗ p t u ᴝ ɯ v ᴥ β γ δ φ χ i r u v β γ ρ φ χ"),
  (7544,"н"),(7579,"ɒ c ɕ ð ɜ f ɟ ɡ ɥ ɨ ɩ ɪ ᵻ ʝ ɭ ᶅ ʟ ɱ ɰ"),(7602,"ɸ ʂ ʃ ƫ ʉ ʊ ᴜ ʋ ʌ z ʐ ʑ ʒ θ"),(7834,"aʾ"),
  (8049,"ά"),(8051,"έ"),(8053,"ή"),(8055,"ί"),(8057,"ό"),(8059,"ύ"),(8061,"ώ"),(8123,"Ά"),(8126,"ι"),
  (8137,"Έ"),(8139,"Ή"),(8147,"ΐ"),(8155,"Ί"),(8163,"ΰ"),(8171,"Ύ"),(8185,"Ό"),(8187,"Ώ"),(8305,"i"),
  (8319,"n"),(8336,"a e o x ə h"),(8346,"p s t"),(8450,"C"),(8455,"Ɛ"),(8458,"g H H H h ħ I I L l"),(8469,"N"),
  (8473,"P Q R R R"),(8484,"Z"),(8486,"Ω"),(8488,"Z"),(8490,"K Å B C"),(8495,"e E F"),(8499,"M o"),(8505,"i"),
  (8508,"π γ Γ Π"),(8517,"D d e i j"),
  (8544,"I II III IV V VI VII VIII IX X XI XII L C D M i ii iii iv v vi vii viii ix x xi xii l c d m"),(11388,"j V"),
  (11631,"ⵡ"),(12344,"十 卄 卅"),(12447,"より"),(12543,"コト"),(12593,"ᄀ ᄁ ᆪ ᄂ ᆬ ᆭ ᄃ ᄄ ᄅ"),(12608,"ᄚ ᄆ ᄇ ᄈ ᄡ"),
  (12644,"ᅠ ᄔ ᄕ ᇇ ᇈ ᇌ ᇎ ᇓ ᇗ ᇙ ᄜ ᇝ ᇟ ᄝ ᄞ ᄠ ᄢ ᄣ ᄧ ᄩ"),(12669,"ᄲ ᄶ ᅀ ᅇ ᅌ ᇱ ᇲ ᅗ ᅘ ᅙ ᆄ ᆅ ᆈ ᆑ ᆒ ᆔ ᆞ ᆡ"),(42652,"ъ ь"),
  (42864,"ꝯ"),(42994,"C F Q"),(43000,"Ħ œ"),(43868,"ꜧ ꬷ ɫ ꭒ"),(43881,"ʍ"),(64256,"ff fi fl ffi ffl st st"),
  (64275,"մն մե մի վն մխ"),(64285,"יִ"),(64287,"ײַ ע א ד ה כ ל ם ר ת"),
  (64298,"שׁ שׂ שּׁ שּׂ אַ אָ אּ בּ גּ דּ הּ וּ זּ"),(64312,"טּ יּ ךּ כּ לּ"),(64318,"מּ"),(64320,"נּ סּ"),
  (64323,"ףּ פּ"),
  (64326,"צּ קּ רּ שּ תּ וֹ בֿ כֿ פֿ אל ٱ ٱ ٻ ٻ ٻ ٻ پ پ پ پ ڀ ڀ ڀ ڀ ٺ ٺ ٺ ٺ ٿ ٿ ٿ ٿ ٹ ٹ ٹ ٹ ڤ ڤ ڤ ڤ ڦ ڦ ڦ"),
  (64369,"ڦ ڄ ڄ ڄ ڄ ڃ ڃ ڃ ڃ چ چ چ چ ڇ ڇ ڇ ڇ ڍ ڍ ڌ ڌ ڎ ڎ ڈ ڈ ژ ژ ڑ ڑ ک ک ک ک گ گ گ گ ڳ ڳ ڳ ڳ ڱ ڱ ڱ ڱ ں ں ڻ"),
  (64417,"ڻ ڻ ڻ ۀ ۀ ہ ہ ہ ہ ھ ھ ھ ھ ے ے ۓ ۓ"),
  (64467,"ڭ ڭ ڭ ڭ ۇ ۇ ۆ ۆ ۈ ۈ ۇٴ ۋ ۋ ۅ ۅ ۉ ۉ ې ې ې ې ى ى ئا ئا ئە ئە ئو ئو ئۇ ئۇ ئۆ ئۆ ئۈ ئۈ ئې"),
  (64503,"ئې ئې ئى ئى ئى ی ی ی ی ئج ئح ئم ئى ئي بج بح بخ بم بى بي تج تح تخ تم تى تي ثج ثم ثى ثي"),
  (64533,"جح جم حج حم خج خح خم سج سح سخ سم صح صم ضج ضح ضخ ضم طح طم ظم عج عم غج غم فج فح فخ فم فى في قح قم"),
  (64565,"قى قي كا كج كح كخ كل كم كى كي لج لح لخ لم لى لي مج مح مخ مم مى مي نج نح نخ نم نى ني هج هم هى هي"),
  (64597,"يج يح يخ يم يى يي ذٰ رٰ ىٰ"),
  (64612,"ئر ئز ئم ئن ئى ئي بر بز بم بن بى بي تر تز تم تن تى تي ثر ثز ثم ثن ثى ثي فى في قى قي كا كل"),
  (64642,"كم كى كي لم لى لي ما مم نر نز نم نن نى ني ىٰ ير يز يم ين يى يي ئج ئح ئخ ئم ئه بج بح بخ بم به"),
  (64673,"تج تح تخ تم ته ثم جح جم حج حم خج خم سج سح سخ سم صح صخ صم ضج ضح ضخ ضم طح ظم عج عم غج غم فج فح فخ"),
  (64705,"فم قح قم كج كح كخ كل كم لج لح لخ لم له مج مح مخ مم نج نح نخ نم نه هج هم هٰ يج يح يخ يم يه ئم ئه"),
  (64737,"بم به تم ته ثم ثه سم سه شم شه كل كم لم نم نه يم يه ـَّ ـُّ ـِّ طى طي عى عي غى غي سى سي شى شي حى"),
  (64768,"حي جى جي خى خي صى صي ضى ضي شج شح شخ شم شر سر صر ضر طى طي عى عي غى غي سى سي شى شي حى حي جى جي خى"),
  (64800,"خي صى صي ضى ضي شج شح شخ شم شر سر صر ضر شج شح شخ شم سه شه طم سج سح سخ شج شح شخ طم ظم اً اً"),
  (64848,"تجم تحج تحج تحم تخم تمج تمح تمخ جمح جمح حمي حمى سحج سجح سجى سمح سمح سمج سمم سمم صحح صحح صمم شحم"),
  (64872,"شحم شجي شمخ شمخ شمم شمم ضحى ضخم ضخم طمح طمح طمم طمي عجم عمم عمم عمى غمم غمي غمى فخم فخم قمح قمم"),
  (64896,"لحم لحي لحى لجج لجج لخم لخم لمح لمح محج محم محي مجح مجم مخج مخم"),
  (64914,"مجخ همج همم نحم نحى نجم نجم نجى نمي نمى يمم يمم بخي تجي تجى تخي تخى تمي تمى جمي جحى جمى سخى صحي"),
  (64938,"شحي ضحي لجي لمي يحي يجي يمي ممي قمي نحي قمح لحم عمي كمي نجح مخي لجم كمم لجم نجح جحي حجي مجي فمي"),
  (64962,"بحي كمم عجم صمم سخي نجي"),(65008,"صلے قلے الله اكبر محمد صلعم رسول عليه وسلم صلى"),(65075,"_ _"),
  (65101,"_ _ _"),(65137,"ـً"),(65143,"ـَ"),(65145,"ـُ"),(65147,"ـِ"),(65149,"ـّ"),
  (65151,"ـْ ء آ آ أ أ ؤ ؤ إ إ ئ ئ ئ ئ ا ا ب ب ب ب ة ة ت ت ت ت ث ث ث ث ج ج ج ج ح ح ح ح خ خ خ خ"),
  (65193,"د د ذ ذ ر ر ز ز س س س س ش ش ش ش ص ص ص ص ض ض ض ض ط ط ط ط ظ ظ ظ ظ ع ع ع ع غ غ غ غ ف ف ف ف ق ق ق ق"),
  (65241,"ك ك ك ك ل ل ل ل م م م م ن ن ن ن ه ه ه ه و و ى ى ي ي ي ي لآ لآ لأ لأ لإ لإ لا لا"),(65343,"_"),
  (65382,"ヲ ァ ィ ゥ ェ ォ ャ ュ ョ ッ ー ア イ ウ エ オ カ キ ク ケ コ サ シ ス セ ソ タ チ ツ テ ト"),(65419,"ヒ フ ヘ ホ"),(65428,"ヤ ユ"),
  (65436,"ワ ン ゙ ゚ ᅠ ᄀ ᄁ ᆪ ᄂ ᆬ ᆭ ᄃ ᄄ ᄅ"),(65456,"ᄚ ᄆ ᄇ ᄈ ᄡ"),(65498,"ᅳ ᅴ ᅵ"),(67457,"ː ˑ æ ʙ ɓ"),
  (67463,"ʣ ꭦ ʥ ʤ ɖ ɗ ᶑ ɘ ɞ ʩ ɤ ɢ ɠ ʛ ħ ʜ ɧ ʄ ʪ ʫ ɬ 𝼄 ꞎ ɮ 𝼅 ʎ 𝼆 ø ɶ ɷ q ɺ 𝼈 ɽ ɾ ʀ ʨ ʦ ꭧ ʧ ʈ ⱱ"),
  (67506,"ʏ ʡ ʢ ʘ ǀ ǁ ǂ 𝼊 𝼞"),(119964,"A"),(119966,"C D"),(119970,"G"),(119973,"J K"),(119995,"f"),(120068,"A B"),
  (120120,"A B"),(120134,"O"),(120484,"ı ȷ"),(120505,"Θ"),(120540,"ε θ κ φ ρ π"),(120563,"Θ"),(120598,"ε θ κ φ ρ π"),
  (120621,"Θ"),(120656,"ε θ κ φ ρ π"),(120679,"Θ"),(120714,"ε θ κ φ ρ π"),(120737,"Θ"),(120772,"ε θ κ φ ρ π Ϝ ϝ"),
  (126464,"ا ب ج د"),(126469,"و ز ح ط ي"),(126478,"س ع ف ص ق ر ش ت ث خ ذ ض ظ غ ٮ ں ڡ ٯ"),(126497,"ب ج"),(126500,"ه"),
  (126503,"ح"),(126505,"ي"),(126510,"س ع ف ص ق"),(126516,"ش ت ث خ"),(126521,"ض"),(126523,"غ"),(126530,"ج"),
  (126535,"ح"),(126537,"ي"),(126539,"ل"),(126541,"ن س ع"),(126545,"ص ق"),(126548,"ش"),(126551,"خ"),(126553,"ض"),
  (126555,"غ"),(126557,"ں"),(126559,"ٯ"),(126561,"ب ج"),(126564,"ه"),(126567,"ح ط ي ك"),(126572,"م ن س ع ف ص ق"),
  (126580,"ش ت ث خ"),(126585,"ض ظ غ ٮ"),(126590,"ڡ"),(126592,"ا ب ج د ه و ز ح ط ي"),
  (126603,"ل م ن س ع ف ص ق ر ش ت ث خ ذ ض ظ غ"),(126625,"ب ج د"),(126629,"و ز ح ط ي"),
  (126635,"ل م ن س ع ف ص ق ر ش ت ث خ ذ ض ظ غ")]

def plainIdeograph? (c : Nat) : Option Nat :=
  if c < 0xf900 then none
  else if c < 0xf900 + ideographs.size then ideographs[c - 0xf900]?
  else if c < 0x2f800 then none
  else moreIdeographs[c - 0x2f800]?

def plainShape? (c : Nat) : Option (List Nat) :=
  match findRun shapeRuns c with
  | some (first, image) => some [image + (c - first)]
  | none =>
    match plainIdeograph? c with
    | some d => some [d]
    | none => shapeWords.findSome? fun (first, words) => if first ≤ c then words[c - first]? else none

end SourceOptimizer.Text
