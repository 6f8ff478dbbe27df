import FpgaLabor.Hls.Types

/-!
# The shipped coefficient tables

The tables of `filter_coeffs.h`, literal by literal, and their conversion to `coeff_t`. The literals are
doubles in the source. Rounding one of them to a double first makes no difference to its raw value
(`toCoeff_of_double`, `filterData_stable`), so `toCoeff` truncates the decimal number itself.
-/

namespace FpgaLabor

/-- The decimal number `mantissa * 10 ^ -digits`. -/
structure Decimal where
  mantissa : ℤ
  digits : ℕ

namespace Decimal

instance : OfScientific Decimal where
  ofScientific mantissa negative exponent :=
    if negative then ⟨mantissa, exponent⟩ else ⟨mantissa * 10 ^ exponent, 0⟩

/-- The number with the opposite sign. -/
protected def neg (d : Decimal) : Decimal := ⟨-d.mantissa, d.digits⟩

/-- The literal as an element of a `coeff_t` array: truncated to 31 fractional bits. -/
def toCoeff (d : Decimal) : CoeffT := ApFixed.ofRaw (d.mantissa * 2 ^ 31 / 10 ^ d.digits)

end Decimal

/-- A `coeff_t` array of 512 entries with these initialisers; the entries without one are zero. -/
def coeffTable (data : List Decimal) (i : BitVec 9) : CoeffT := ((data[i.toNat]?).map Decimal.toCoeff).getD 0

/-- `filter_128_data`. -/
def filter128Data : List Decimal := [
  0.0000041139417160151312, .neg 0.000007180193276187163, 0.000011811417465430359,
  .neg 0.000016435737797082954, 0.00001944614313345736, .neg 0.000018708571536198337,
  0.000011907729035971545, 0.0000028900854175504685, .neg 0.000026500867043351545,
  0.000057856426160484468, .neg 0.000093392729713538173, 0.0001267970812593208,
  .neg 0.00014932878022845945, 0.0001508537963738429, .neg 0.00012159816428078418,
  0.00005447644014266919, 0.000052326742256097189, .neg 0.00019302032387720453, 0.00035270679770947074,
  .neg 0.0005072978169151258, 0.00062530537565998667, .neg 0.00067170886615844426,
  0.00061371389054634034, .neg 0.00042778399214732669, 0.00010691042131154944, 0.00033323686263156795,
  .neg 0.00085076287195075717, 0.0013779556391546781, .neg 0.0018265717479619315, 0.0020982214459245815,
  .neg 0.0020991761834700446, 0.0017579573640689955, .neg 0.0010431968975670274,
  .neg 0.000021333101529333667, 0.0013477718064489703, .neg 0.0027841496951279973,
  0.0041251712254497643, .neg 0.0051341944684469435, 0.0055749824542112841, .neg 0.0052499068264833387,
  0.0040396272711647474, .neg 0.0019381613265642243, .neg 0.00092303359605823421, 0.0042676552097236642,
  .neg 0.0076878256725532758, 0.01067947660149325, .neg 0.012698172855615241, 0.013230449907203373,
  .neg 0.011872859424846068, 0.0084089034243513064, .neg 0.0028733151189853853,
  .neg 0.0044060076797091535, 0.012795601032171505, .neg 0.021376654228748047, 0.028995420552401657,
  .neg 0.034334457370499269, 0.035986224233154084, .neg 0.032496067014284841, 0.022310635171571724,
  .neg 0.0034805482427279766, .neg 0.027343502230895239, 0.078511930543906205, .neg 0.18149664425905487,
  0.62613876212529496, 0.62613876212529496, .neg 0.18149664425905487, 0.078511930543906205,
  .neg 0.027343502230895239, .neg 0.0034805482427279766, 0.022310635171571724,
  .neg 0.032496067014284841, 0.035986224233154084, .neg 0.034334457370499269, 0.028995420552401657,
  .neg 0.021376654228748047, 0.012795601032171505, .neg 0.0044060076797091535,
  .neg 0.0028733151189853853, 0.0084089034243513064, .neg 0.011872859424846068, 0.013230449907203373,
  .neg 0.012698172855615241, 0.01067947660149325, .neg 0.0076878256725532758, 0.0042676552097236642,
  .neg 0.00092303359605823421, .neg 0.0019381613265642243, 0.0040396272711647474,
  .neg 0.0052499068264833387, 0.0055749824542112841, .neg 0.0051341944684469435, 0.0041251712254497643,
  .neg 0.0027841496951279973, 0.0013477718064489703, .neg 0.000021333101529333667,
  .neg 0.0010431968975670274, 0.0017579573640689955, .neg 0.0020991761834700446, 0.0020982214459245815,
  .neg 0.0018265717479619315, 0.0013779556391546781, .neg 0.00085076287195075717,
  0.00033323686263156795, 0.00010691042131154944, .neg 0.00042778399214732669, 0.00061371389054634034,
  .neg 0.00067170886615844426, 0.00062530537565998667, .neg 0.0005072978169151258,
  0.00035270679770947074, .neg 0.00019302032387720453, 0.000052326742256097189, 0.00005447644014266919,
  .neg 0.00012159816428078418, 0.0001508537963738429, .neg 0.00014932878022845945,
  0.0001267970812593208, .neg 0.000093392729713538173, 0.000057856426160484468,
  .neg 0.000026500867043351545, 0.0000028900854175504685, 0.000011907729035971545,
  .neg 0.000018708571536198337, 0.00001944614313345736, .neg 0.000016435737797082954,
  0.000011811417465430359, .neg 0.000007180193276187163, 0.0000041139417160151312]

/-- `filter_256_data`. -/
def filter256Data : List Decimal := [
  0.0000024654027057766472, .neg 0.00000043831114676433552, .neg 0.0000032457315726530873,
  .neg 0.0000016514591481364039, 0.0000034568352766249292, 0.000003333017539452814,
  .neg 0.0000040792666450029977, .neg 0.0000068868651892194619, 0.0000024757300224203322,
  0.000010282258677693881, 0.00000067350905015611283, .neg 0.00001380185088053879,
  .neg 0.0000067542761735941171, 0.000015375646375145392, 0.000015052126826809333,
  .neg 0.000013988918511289975, .neg 0.000025224663882748937, 0.0000076927839359193299,
  0.000035244179340625212, 0.0000043821019234243273, .neg 0.00004272609016801979,
  .neg 0.000022628803646467808, 0.000044259540388656787, 0.000045711071520682101,
  .neg 0.000036560662192544229, .neg 0.000070771493267307145, 0.000016783963192628878,
  0.000093004136675574578, 0.000016253395606465509, .neg 0.00010627787990512452,
  .neg 0.000061380473384115122, 0.00010377347338773122, 0.00011423381578263726,
  .neg 0.000079376936478125603, .neg 0.00016711888004296212, 0.000029155472735816816,
  0.00020934559557603141, 0.000046942426802876419, .neg 0.00022846156535218711,
  .neg 0.00014377136497511543, 0.00021216518172093775, 0.00025023060886019679,
  .neg 0.00015086936295009208, .neg 0.00034955005385764774, 0.000040476689294685576,
  0.00042076384557963728, 0.00011507740729633373, .neg 0.00044148630316788326,
  .neg 0.00030211919021299683, 0.00039175669037528759, 0.00049692358283319883,
  .neg 0.00025852753562798715, .neg 0.00066723724258205123, 0.000040072670322652412,
  0.00077583120390357441, 0.00025052737666294395, .neg 0.00078592357713406428,
  .neg 0.00058372679173006618, 0.00066794148856802764, 0.0009144374922190261,
  .neg 0.00040668185842957476, .neg 0.0011859932475109384, 0.000007678342776539903,
  0.0013371490143950933, 0.00049857374503566401, .neg 0.0013115730594182285, .neg 0.0010557686279052067,
  0.0010686950718681158, 0.0015852207261596045, .neg 0.00059433207074053836, .neg 0.00199390991595947,
  .neg 0.000090812461741594623, 0.0021867446387983896, 0.00092666337689062774,
  .neg 0.0020818246444505003, .neg 0.0018148873364578981, 0.0016267717675618686, 0.0026265439707384417,
  .neg 0.00081361583763855125, .neg 0.003216295577793819, .neg 0.00031045797643064542,
  0.0034421220734386204, 0.0016390292492201577, .neg 0.0031884178698303291, .neg 0.003010896455672589,
  0.0023894338137829293, 0.004223905741629337, .neg 0.001049494177663515, .neg 0.0050576503172984049,
  .neg 0.00074365773066576769, 0.0053031130644292995, 0.0028155211338917441, .neg 0.0047959729301431508,
  .neg 0.0049135986162526565, 0.0034493153025652486, 0.0067288352989557411, .neg 0.0012810064460546471,
  .neg 0.0079285618360005333, .neg 0.0015687979439281343, 0.008197961840734215, 0.0048336208622862106,
  .neg 0.0072855887906166233, .neg 0.0081321378533145104, 0.0050474583661276589, 0.010995100417965593,
  .neg 0.0014840443735912624, .neg 0.012905267283259705, .neg 0.0032347771132322251,
  0.013345501651022544, 0.0087600443311314589, .neg 0.011847850879970227, .neg 0.014569572435217453,
  0.008034120659785194, 0.019985188287357684, .neg 0.001635206734160068, .neg 0.024189660680929186,
  .neg 0.0075306684870069295, 0.026215967507603185, 0.01966204606817994, .neg 0.024838181426314967,
  .neg 0.035278046088246813, 0.018135429852401054, 0.05617227613220864, .neg 0.0017159232203774744,
  .neg 0.089527166385538023, .neg 0.041844902114926572, 0.18451222638100023, 0.40785766739133977,
  0.40785766739133977, 0.18451222638100023, .neg 0.041844902114926572, .neg 0.089527166385538023,
  .neg 0.0017159232203774744, 0.05617227613220864, 0.018135429852401054, .neg 0.035278046088246813,
  .neg 0.024838181426314967, 0.01966204606817994, 0.026215967507603185, .neg 0.0075306684870069295,
  .neg 0.024189660680929186, .neg 0.001635206734160068, 0.019985188287357684, 0.008034120659785194,
  .neg 0.014569572435217453, .neg 0.011847850879970227, 0.0087600443311314589, 0.013345501651022544,
  .neg 0.0032347771132322251, .neg 0.012905267283259705, .neg 0.0014840443735912624,
  0.010995100417965593, 0.0050474583661276589, .neg 0.0081321378533145104, .neg 0.0072855887906166233,
  0.0048336208622862106, 0.008197961840734215, .neg 0.0015687979439281343, .neg 0.0079285618360005333,
  .neg 0.0012810064460546471, 0.0067288352989557411, 0.0034493153025652486, .neg 0.0049135986162526565,
  .neg 0.0047959729301431508, 0.0028155211338917441, 0.0053031130644292995, .neg 0.00074365773066576769,
  .neg 0.0050576503172984049, .neg 0.001049494177663515, 0.004223905741629337, 0.0023894338137829293,
  .neg 0.003010896455672589, .neg 0.0031884178698303291, 0.0016390292492201577, 0.0034421220734386204,
  .neg 0.00031045797643064542, .neg 0.003216295577793819, .neg 0.00081361583763855125,
  0.0026265439707384417, 0.0016267717675618686, .neg 0.0018148873364578981, .neg 0.0020818246444505003,
  0.00092666337689062774, 0.0021867446387983896, .neg 0.000090812461741594623, .neg 0.00199390991595947,
  .neg 0.00059433207074053836, 0.0015852207261596045, 0.0010686950718681158, .neg 0.0010557686279052067,
  .neg 0.0013115730594182285, 0.00049857374503566401, 0.0013371490143950933, 0.000007678342776539903,
  .neg 0.0011859932475109384, .neg 0.00040668185842957476, 0.0009144374922190261,
  0.00066794148856802764, .neg 0.00058372679173006618, .neg 0.00078592357713406428,
  0.00025052737666294395, 0.00077583120390357441, 0.000040072670322652412, .neg 0.00066723724258205123,
  .neg 0.00025852753562798715, 0.00049692358283319883, 0.00039175669037528759,
  .neg 0.00030211919021299683, .neg 0.00044148630316788326, 0.00011507740729633373,
  0.00042076384557963728, 0.000040476689294685576, .neg 0.00034955005385764774,
  .neg 0.00015086936295009208, 0.00025023060886019679, 0.00021216518172093775,
  .neg 0.00014377136497511543, .neg 0.00022846156535218711, 0.000046942426802876419,
  0.00020934559557603141, 0.000029155472735816816, .neg 0.00016711888004296212,
  .neg 0.000079376936478125603, 0.00011423381578263726, 0.00010377347338773122,
  .neg 0.000061380473384115122, .neg 0.00010627787990512452, 0.000016253395606465509,
  0.000093004136675574578, 0.000016783963192628878, .neg 0.000070771493267307145,
  .neg 0.000036560662192544229, 0.000045711071520682101, 0.000044259540388656787,
  .neg 0.000022628803646467808, .neg 0.00004272609016801979, 0.0000043821019234243273,
  0.000035244179340625212, 0.0000076927839359193299, .neg 0.000025224663882748937,
  .neg 0.000013988918511289975, 0.000015052126826809333, 0.000015375646375145392,
  .neg 0.0000067542761735941171, .neg 0.00001380185088053879, 0.00000067350905015611283,
  0.000010282258677693881, 0.0000024757300224203322, .neg 0.0000068868651892194619,
  .neg 0.0000040792666450029977, 0.000003333017539452814, 0.0000034568352766249292,
  .neg 0.0000016514591481364039, .neg 0.0000032457315726530873, .neg 0.00000043831114676433552,
  0.0000024654027057766472]

/-- `filter_512_data`. -/
def filter512Data : List Decimal := [
  0.0000044794164186306532, .neg 0.0000021776184972539877, .neg 0.0000030527507626454812,
  .neg 0.0000037179781891645397, .neg 0.0000033848191894954857, .neg 0.0000017521119391099753,
  0.00000076817526417334335, 0.0000031599101157834775, 0.000004235138834674425,
  0.0000032440389141835598, 0.00000034957581405706773, .neg 0.000003282506532584711,
  .neg 0.0000059147161986378963, .neg 0.0000060266436595039593, .neg 0.000003137232180688767,
  0.0000017871804787770588, 0.0000065867100260711954, 0.0000088296535590750261,
  0.0000069980006714782714, 0.0000014056151023763898, .neg 0.0000057035236224790124,
  .neg 0.000010994513966055825, .neg 0.000011581472669450997, .neg 0.0000065098432685454991,
  0.0000024757328499398321, 0.000011431007997897076, 0.000015929749127564702, 0.000013157856293381382,
  0.0000035572094714330009, .neg 0.0000089991398019615584, .neg 0.000018688055588529556,
  .neg 0.000020390005583029739, .neg 0.000012301623787776329, 0.0000027693286597246674,
  0.000018249168570800474, 0.000026596311788018059, 0.000022907139413411597, 0.000007625818828335874,
  .neg 0.000013070912307434535, .neg 0.000029671314930817106, .neg 0.000033627520311039827,
  .neg 0.000021650138518193261, 0.0000021182806982832366, 0.000027344793989131811,
  0.000041907802764077086, 0.00003763333463295915, 0.000014681058063183826,
  .neg 0.000017678870628979205, .neg 0.000044681819659193086, .neg 0.00005270983773466831,
  .neg 0.000036024326211481953, .neg 0.00000032760297877151112, 0.000038917040176867618,
  0.000063060802244129224, 0.000059022336670488192, 0.000026145583572174851,
  .neg 0.000022333865100669135, .neg 0.000064433834093903075, .neg 0.000079272083133544613,
  .neg 0.000057268772135687603, .neg 0.000005778429391784239, 0.000052972941454374461,
  0.000091328454472011447, 0.000089080076285275034, 0.000043857541111238171,
  .neg 0.000026218138620637591, .neg 0.000089545481124455852, .neg 0.00011514472783956308,
  .neg 0.000087625206072940791, .neg 0.000015870877453484216, 0.000069260243627528996,
  0.00012801130938295801, 0.00013012049776518438, 0.000070116600187110085, .neg 0.000028106252761754579,
  .neg 0.00012047233603459064, .neg 0.00016231427966030708, .neg 0.00012975606392433593,
  .neg 0.000032742997172493997, 0.000087170680414076096, 0.00017436606985004154, 0.00018475335042145852,
  0.00010773428499236121, .neg 0.000026273631528268916, .neg 0.00015740867496951211,
  .neg 0.00022287464406323446, .neg 0.000186756154516333, .neg 0.000059098744819738812,
  0.00010564887272077251, 0.00023153143199162486, 0.00025586386638474162, 0.00016007217783903347,
  .neg 0.000018412956474918777, .neg 0.0002002010665756932, .neg 0.00029896971489343167,
  .neg 0.0002621581282792972, .neg 0.000098279176834098334, 0.00012309062292420491,
  0.00030043698039404639, 0.00034657062388093296, 0.0002310757126524763, .neg 0.0000015446460390694739,
  .neg 0.00024824240532766398, .neg 0.00039272386112064201, .neg 0.00035992979043520355,
  .neg 0.00015432660159730625, 0.00013724341824544457, 0.00038172058541423911, 0.00046020629508274926,
  0.00032532247751146918, 0.000028081609853777156, .neg 0.00030037073652428535,
  .neg 0.00050618897750677699, .neg 0.00048449525826220214, .neg 0.00023207022732134327,
  0.00014509389380457552, 0.00047564159039238993, 0.00060029294835862101, 0.00044807583995946047,
  0.000075088630683563069, .neg 0.00035477011650918502, .neg 0.00064129512164273403,
  .neg 0.00064076439336776701, .neg 0.00033722357023881412, 0.00014275330528261263,
  0.00058200751144685519, 0.00077055473793315871, 0.00060538261024038905, 0.00014511242889201221,
  .neg 0.00040885716533447885, .neg 0.0007998272611845663, .neg 0.00083421676990954913,
  .neg 0.00047653596349444985, 0.00012531037108891383, 0.00070011350361751882, 0.00097498299377538457,
  0.00080423890623373896, 0.00024498865515829293, .neg 0.00045917229460021861,
  .neg 0.00098346110037612357, .neg 0.0010710804175574351, .neg 0.00065804023027806521,
  0.00008663840441806473, 0.00082870637717601591, 0.0012179933076916869, 0.0010528834181316189,
  0.00038304632089915968, .neg 0.00050123655281399397, .neg 0.0011938606237353931,
  .neg 0.00135864969885503, .neg 0.0008914533876458327, 0.000019106018864064028, 0.00096597201742588479,
  0.0015047325572984242, 0.0013613072262851681, 0.00056958774419880304, .neg 0.00052934833915697368,
  .neg 0.0014328929268510545, .neg 0.0017058604685517807, .neg 0.0011888664791772964,
  .neg 0.000086891516037884643, 0.0011095536453948787, 0.0018416377589252683, 0.0017421416373063837,
  0.00081769921662566648, .neg 0.00053627031457401239, .neg 0.0017030328965618202,
  .neg 0.0021243057551503437, .neg 0.0015659412092109291, .neg 0.00024373261606302875,
  0.0012566009188969432, 0.0022374216961106638, 0.0022122102198047526, 0.0011446657005034948,
  .neg 0.00051268078044571072, .neg 0.002008076094682273, .neg 0.0026300235938760191,
  .neg 0.0020440227312912298, .neg 0.00046799192968645392, 0.0014038499829568691, 0.0027048276642972274,
  0.0027953116092213556, 0.0015745294838744447, .neg 0.00044615968057321292, .neg 0.0023544027899986292,
  .neg 0.0032467350627159884, .neg 0.0026540089359503314, .neg 0.00078307979946617284,
  0.0015477321723109676, 0.0032638487452143071, 0.0035274000722159459, 0.0021429107587917916,
  .neg 0.00031922852805508551, .neg 0.0027533277370058126, .neg 0.0040120028109331849,
  .neg 0.0034438053916308617, .neg 0.0012244114943346675, 0.0016845067803162612, 0.0039479900691654288,
  0.0044668234059324959, 0.0029066722472291095, .neg 0.00010531202276076873, .neg 0.0032257634216803343,
  .neg 0.0049897706707310602, .neg 0.0044937301420856068, .neg 0.0018502684548207481,
  0.0018104123037143371, 0.0048174692810970011, 0.0057162794725482361, 0.0039649674673744827,
  0.0002402670763942238, .neg 0.0038124264785217446, .neg 0.0062984686534676166,
  .neg 0.0059516144410830685, .neg 0.0027669908572296332, 0.0019218252972472477, 0.0059903609839433245,
  0.0074756075414258273, 0.0055107729378944658, 0.00080285734514968783, .neg 0.0045993670826218859,
  .neg 0.0081830354035475061, .neg 0.0081245783915459609, .neg 0.0041962613959354812,
  0.0020154214703156171, 0.0077286946549248768, 0.0101912004692098, 0.0079802372570828232,
  0.0017756701218275648, .neg 0.0057952136406153537, .neg 0.011239286763106912,
  .neg 0.01177314032088083, .neg 0.0066972688921133686, 0.0020883289692570773, 0.010740440459517749,
  0.015098834052394502, 0.012615747887601432, 0.0037234977721316382, .neg 0.0080462547241664916,
  .neg 0.017372167227404013, .neg 0.019429858788924004, .neg 0.012216542485317779,
  0.0021382639244226223, 0.017785355430440949, 0.027314947305779325, 0.024924798209394635,
  0.0093461058613037839, .neg 0.014752127250131166, .neg 0.037652284990482274,
  .neg 0.047672234566325314, .neg 0.035445645549852425, 0.0021636385499252675, 0.060054028978438624,
  0.12569660179441094, 0.18265659005987717, 0.21569586696101234, 0.21569586696101234,
  0.18265659005987717, 0.12569660179441094, 0.060054028978438624, 0.0021636385499252675,
  .neg 0.035445645549852425, .neg 0.047672234566325314, .neg 0.037652284990482274,
  .neg 0.014752127250131166, 0.0093461058613037839, 0.024924798209394635, 0.027314947305779325,
  0.017785355430440949, 0.0021382639244226223, .neg 0.012216542485317779, .neg 0.019429858788924004,
  .neg 0.017372167227404013, .neg 0.0080462547241664916, 0.0037234977721316382, 0.012615747887601432,
  0.015098834052394502, 0.010740440459517749, 0.0020883289692570773, .neg 0.0066972688921133686,
  .neg 0.01177314032088083, .neg 0.011239286763106912, .neg 0.0057952136406153537,
  0.0017756701218275648, 0.0079802372570828232, 0.0101912004692098, 0.0077286946549248768,
  0.0020154214703156171, .neg 0.0041962613959354812, .neg 0.0081245783915459609,
  .neg 0.0081830354035475061, .neg 0.0045993670826218859, 0.00080285734514968783, 0.0055107729378944658,
  0.0074756075414258273, 0.0059903609839433245, 0.0019218252972472477, .neg 0.0027669908572296332,
  .neg 0.0059516144410830685, .neg 0.0062984686534676166, .neg 0.0038124264785217446,
  0.0002402670763942238, 0.0039649674673744827, 0.0057162794725482361, 0.0048174692810970011,
  0.0018104123037143371, .neg 0.0018502684548207481, .neg 0.0044937301420856068,
  .neg 0.0049897706707310602, .neg 0.0032257634216803343, .neg 0.00010531202276076873,
  0.0029066722472291095, 0.0044668234059324959, 0.0039479900691654288, 0.0016845067803162612,
  .neg 0.0012244114943346675, .neg 0.0034438053916308617, .neg 0.0040120028109331849,
  .neg 0.0027533277370058126, .neg 0.00031922852805508551, 0.0021429107587917916, 0.0035274000722159459,
  0.0032638487452143071, 0.0015477321723109676, .neg 0.00078307979946617284, .neg 0.0026540089359503314,
  .neg 0.0032467350627159884, .neg 0.0023544027899986292, .neg 0.00044615968057321292,
  0.0015745294838744447, 0.0027953116092213556, 0.0027048276642972274, 0.0014038499829568691,
  .neg 0.00046799192968645392, .neg 0.0020440227312912298, .neg 0.0026300235938760191,
  .neg 0.002008076094682273, .neg 0.00051268078044571072, 0.0011446657005034948, 0.0022122102198047526,
  0.0022374216961106638, 0.0012566009188969432, .neg 0.00024373261606302875, .neg 0.0015659412092109291,
  .neg 0.0021243057551503437, .neg 0.0017030328965618202, .neg 0.00053627031457401239,
  0.00081769921662566648, 0.0017421416373063837, 0.0018416377589252683, 0.0011095536453948787,
  .neg 0.000086891516037884643, .neg 0.0011888664791772964, .neg 0.0017058604685517807,
  .neg 0.0014328929268510545, .neg 0.00052934833915697368, 0.00056958774419880304,
  0.0013613072262851681, 0.0015047325572984242, 0.00096597201742588479, 0.000019106018864064028,
  .neg 0.0008914533876458327, .neg 0.00135864969885503, .neg 0.0011938606237353931,
  .neg 0.00050123655281399397, 0.00038304632089915968, 0.0010528834181316189, 0.0012179933076916869,
  0.00082870637717601591, 0.00008663840441806473, .neg 0.00065804023027806521,
  .neg 0.0010710804175574351, .neg 0.00098346110037612357, .neg 0.00045917229460021861,
  0.00024498865515829293, 0.00080423890623373896, 0.00097498299377538457, 0.00070011350361751882,
  0.00012531037108891383, .neg 0.00047653596349444985, .neg 0.00083421676990954913,
  .neg 0.0007998272611845663, .neg 0.00040885716533447885, 0.00014511242889201221,
  0.00060538261024038905, 0.00077055473793315871, 0.00058200751144685519, 0.00014275330528261263,
  .neg 0.00033722357023881412, .neg 0.00064076439336776701, .neg 0.00064129512164273403,
  .neg 0.00035477011650918502, 0.000075088630683563069, 0.00044807583995946047, 0.00060029294835862101,
  0.00047564159039238993, 0.00014509389380457552, .neg 0.00023207022732134327,
  .neg 0.00048449525826220214, .neg 0.00050618897750677699, .neg 0.00030037073652428535,
  0.000028081609853777156, 0.00032532247751146918, 0.00046020629508274926, 0.00038172058541423911,
  0.00013724341824544457, .neg 0.00015432660159730625, .neg 0.00035992979043520355,
  .neg 0.00039272386112064201, .neg 0.00024824240532766398, .neg 0.0000015446460390694739,
  0.0002310757126524763, 0.00034657062388093296, 0.00030043698039404639, 0.00012309062292420491,
  .neg 0.000098279176834098334, .neg 0.0002621581282792972, .neg 0.00029896971489343167,
  .neg 0.0002002010665756932, .neg 0.000018412956474918777, 0.00016007217783903347,
  0.00025586386638474162, 0.00023153143199162486, 0.00010564887272077251, .neg 0.000059098744819738812,
  .neg 0.000186756154516333, .neg 0.00022287464406323446, .neg 0.00015740867496951211,
  .neg 0.000026273631528268916, 0.00010773428499236121, 0.00018475335042145852, 0.00017436606985004154,
  0.000087170680414076096, .neg 0.000032742997172493997, .neg 0.00012975606392433593,
  .neg 0.00016231427966030708, .neg 0.00012047233603459064, .neg 0.000028106252761754579,
  0.000070116600187110085, 0.00013012049776518438, 0.00012801130938295801, 0.000069260243627528996,
  .neg 0.000015870877453484216, .neg 0.000087625206072940791, .neg 0.00011514472783956308,
  .neg 0.000089545481124455852, .neg 0.000026218138620637591, 0.000043857541111238171,
  0.000089080076285275034, 0.000091328454472011447, 0.000052972941454374461,
  .neg 0.000005778429391784239, .neg 0.000057268772135687603, .neg 0.000079272083133544613,
  .neg 0.000064433834093903075, .neg 0.000022333865100669135, 0.000026145583572174851,
  0.000059022336670488192, 0.000063060802244129224, 0.000038917040176867618,
  .neg 0.00000032760297877151112, .neg 0.000036024326211481953, .neg 0.00005270983773466831,
  .neg 0.000044681819659193086, .neg 0.000017678870628979205, 0.000014681058063183826,
  0.00003763333463295915, 0.000041907802764077086, 0.000027344793989131811, 0.0000021182806982832366,
  .neg 0.000021650138518193261, .neg 0.000033627520311039827, .neg 0.000029671314930817106,
  .neg 0.000013070912307434535, 0.000007625818828335874, 0.000022907139413411597,
  0.000026596311788018059, 0.000018249168570800474, 0.0000027693286597246674,
  .neg 0.000012301623787776329, .neg 0.000020390005583029739, .neg 0.000018688055588529556,
  .neg 0.0000089991398019615584, 0.0000035572094714330009, 0.000013157856293381382,
  0.000015929749127564702, 0.000011431007997897076, 0.0000024757328499398321,
  .neg 0.0000065098432685454991, .neg 0.000011581472669450997, .neg 0.000010994513966055825,
  .neg 0.0000057035236224790124, 0.0000014056151023763898, 0.0000069980006714782714,
  0.0000088296535590750261, 0.0000065867100260711954, 0.0000017871804787770588,
  .neg 0.000003137232180688767, .neg 0.0000060266436595039593, .neg 0.0000059147161986378963,
  .neg 0.000003282506532584711, 0.00000034957581405706773, 0.0000032440389141835598,
  0.000004235138834674425, 0.0000031599101157834775, 0.00000076817526417334335,
  .neg 0.0000017521119391099753, .neg 0.0000033848191894954857, .neg 0.0000037179781891645397,
  .neg 0.0000030527507626454812, .neg 0.0000021776184972539877, 0.0000044794164186306532]

/-! ### The literals as doubles -/

/-- No step of `coeff_t` lies within the rounding error of a double around the number. -/
def Decimal.Stable (d : Decimal) : Prop :=
  (d.mantissa * 2 ^ 53 - |d.mantissa|) * 2 ^ 31 / (10 ^ d.digits * 2 ^ 53) =
    (d.mantissa * 2 ^ 53 + |d.mantissa|) * 2 ^ 31 / (10 ^ d.digits * 2 ^ 53)

instance (d : Decimal) : Decidable d.Stable := inferInstanceAs (Decidable (_ = _))

/-- **Rounding the literal to a double** `M * 2 ^ -k` before it is truncated makes no difference. -/
theorem Decimal.toCoeff_of_double {d : Decimal} (h : d.Stable) {M : ℤ} {k : ℕ}
    (hround : |M * 10 ^ d.digits - d.mantissa * 2 ^ k| * 2 ^ 53 ≤ |d.mantissa| * 2 ^ k) :
    ApFixed.ofRaw (M * 2 ^ 31 / 2 ^ k) = d.toCoeff := by
  obtain ⟨m, e⟩ := d
  have hD : (0 : ℤ) < 10 ^ e := by positivity
  have hK : (0 : ℤ) < 2 ^ k := by positivity
  have hm : 0 ≤ |m| := abs_nonneg m
  simp only [Stable] at h
  simp only [toCoeff] at hround ⊢
  generalize (10 : ℤ) ^ e = D at *
  generalize (2 : ℤ) ^ k = K at *
  have hscale : 0 < D * 2 ^ 53 := by positivity
  -- both the decimal number and the double truncate to `q`
  obtain ⟨q, hq⟩ : ∃ q, (m * 2 ^ 53 - |m|) * 2 ^ 31 / (D * 2 ^ 53) = q := ⟨_, rfl⟩
  have hlo : q * (D * 2 ^ 53) ≤ (m * 2 ^ 53 - |m|) * 2 ^ 31 := (Int.le_ediv_iff_mul_le hscale).mp hq.ge
  have hhi : (m * 2 ^ 53 + |m|) * 2 ^ 31 < (q + 1) * (D * 2 ^ 53) :=
    (Int.ediv_lt_iff_lt_mul hscale).mp (by omega)
  have hdecimal : m * 2 ^ 31 / D = q := (Int.ediv_eq_iff_of_pos hD).mpr ⟨by linarith, by linarith⟩
  obtain ⟨hbelow, habove⟩ := abs_le.mp (le_refl |M * D - m * K|)
  have hdouble : M * 2 ^ 31 / K = q := by
    apply (Int.ediv_eq_iff_of_pos hK).mpr
    refine ⟨?_, ?_⟩
    · have hscaled : q * K * (D * 2 ^ 53) ≤ M * 2 ^ 31 * (D * 2 ^ 53) := by
        nlinarith only [hlo, hround, hbelow, hK]
      exact le_of_mul_le_mul_right hscaled hscale
    · have hscaled : M * 2 ^ 31 * (D * 2 ^ 53) < (q * K + K) * (D * 2 ^ 53) := by
        nlinarith only [hhi, hround, habove, hK]
      exact lt_of_mul_lt_mul_right hscaled hscale.le
  rw [hdecimal, hdouble]

/-- No literal of the tables is near such a step. -/
theorem filterData_stable : ∀ d ∈ filter128Data ++ filter256Data ++ filter512Data, d.Stable := by
  decide +kernel

end FpgaLabor
