import WebKit.WTF.WTFString

/-!
# Canonical equivalence of characters

The table `rangeInfo` divides all characters into ranges (`rangeInfo_tiles`), so the binary search of `rangeInfoFor` ends
at the range of its character (`rangeInfoFor_spec`), and the ranges from there on reach to the last character.
-/

namespace WebKit.Yarr

open WebKit.WTF

inductive UCS2CanonicalizationType
  | canonicalizeUnique
  | canonicalizeSet
  | canonicalizeRangeLo
  | canonicalizeRangeHi
  | canonicalizeAlternatingAligned
  | canonicalizeAlternatingUnaligned
  deriving DecidableEq

structure UCS2CanonicalizationRange where
  first : UChar
  last : UChar
  value : UInt16
  type : UCS2CanonicalizationType
  deriving DecidableEq

/-- The sets, without the zero at their end. -/
def characterSetInfo : List (List UChar) :=
  [[0x01c4, 0x01c5, 0x01c6], [0x01c7, 0x01c8, 0x01c9], [0x01ca, 0x01cb, 0x01cc], [0x01f1, 0x01f2, 0x01f3],
   [0x0392, 0x03b2, 0x03d0], [0x0395, 0x03b5, 0x03f5], [0x0398, 0x03b8, 0x03d1], [0x0345, 0x0399, 0x03b9, 0x1fbe],
   [0x039a, 0x03ba, 0x03f0], [0x00b5, 0x039c, 0x03bc], [0x03a0, 0x03c0, 0x03d6], [0x03a1, 0x03c1, 0x03f1],
   [0x03a3, 0x03c2, 0x03c3], [0x03a6, 0x03c6, 0x03d5], [0x1e60, 0x1e61, 0x1e9b]]

def rangeInfo : List UCS2CanonicalizationRange :=
  [⟨0x0000, 0x0040, 0, .canonicalizeUnique⟩, ⟨0x0041, 0x005a, 0x0020, .canonicalizeRangeLo⟩,
   ⟨0x005b, 0x0060, 0, .canonicalizeUnique⟩, ⟨0x0061, 0x007a, 0x0020, .canonicalizeRangeHi⟩,
   ⟨0x007b, 0x00b4, 0, .canonicalizeUnique⟩, ⟨0x00b5, 0x00b5, 0x0009, .canonicalizeSet⟩,
   ⟨0x00b6, 0x00bf, 0, .canonicalizeUnique⟩, ⟨0x00c0, 0x00d6, 0x0020, .canonicalizeRangeLo⟩,
   ⟨0x00d7, 0x00d7, 0, .canonicalizeUnique⟩, ⟨0x00d8, 0x00de, 0x0020, .canonicalizeRangeLo⟩,
   ⟨0x00df, 0x00df, 0, .canonicalizeUnique⟩, ⟨0x00e0, 0x00f6, 0x0020, .canonicalizeRangeHi⟩,
   ⟨0x00f7, 0x00f7, 0, .canonicalizeUnique⟩, ⟨0x00f8, 0x00fe, 0x0020, .canonicalizeRangeHi⟩,
   ⟨0x00ff, 0x00ff, 0x0079, .canonicalizeRangeLo⟩, ⟨0x0100, 0x012f, 0, .canonicalizeAlternatingAligned⟩,
   ⟨0x0130, 0x0131, 0, .canonicalizeUnique⟩, ⟨0x0132, 0x0137, 0, .canonicalizeAlternatingAligned⟩,
   ⟨0x0138, 0x0138, 0, .canonicalizeUnique⟩, ⟨0x0139, 0x0148, 0, .canonicalizeAlternatingUnaligned⟩,
   ⟨0x0149, 0x0149, 0, .canonicalizeUnique⟩, ⟨0x014a, 0x0177, 0, .canonicalizeAlternatingAligned⟩,
   ⟨0x0178, 0x0178, 0x0079, .canonicalizeRangeHi⟩, ⟨0x0179, 0x017e, 0, .canonicalizeAlternatingUnaligned⟩,
   ⟨0x017f, 0x017f, 0, .canonicalizeUnique⟩, ⟨0x0180, 0x0180, 0x00c3, .canonicalizeRangeLo⟩,
   ⟨0x0181, 0x0181, 0x00d2, .canonicalizeRangeLo⟩, ⟨0x0182, 0x0185, 0, .canonicalizeAlternatingAligned⟩,
   ⟨0x0186, 0x0186, 0x00ce, .canonicalizeRangeLo⟩, ⟨0x0187, 0x0188, 0, .canonicalizeAlternatingUnaligned⟩,
   ⟨0x0189, 0x018a, 0x00cd, .canonicalizeRangeLo⟩, ⟨0x018b, 0x018c, 0, .canonicalizeAlternatingUnaligned⟩,
   ⟨0x018d, 0x018d, 0, .canonicalizeUnique⟩, ⟨0x018e, 0x018e, 0x004f, .canonicalizeRangeLo⟩,
   ⟨0x018f, 0x018f, 0x00ca, .canonicalizeRangeLo⟩, ⟨0x0190, 0x0190, 0x00cb, .canonicalizeRangeLo⟩,
   ⟨0x0191, 0x0192, 0, .canonicalizeAlternatingUnaligned⟩, ⟨0x0193, 0x0193, 0x00cd, .canonicalizeRangeLo⟩,
   ⟨0x0194, 0x0194, 0x00cf, .canonicalizeRangeLo⟩, ⟨0x0195, 0x0195, 0x0061, .canonicalizeRangeLo⟩,
   ⟨0x0196, 0x0196, 0x00d3, .canonicalizeRangeLo⟩, ⟨0x0197, 0x0197, 0x00d1, .canonicalizeRangeLo⟩,
   ⟨0x0198, 0x0199, 0, .canonicalizeAlternatingAligned⟩, ⟨0x019a, 0x019a, 0x00a3, .canonicalizeRangeLo⟩,
   ⟨0x019b, 0x019b, 0, .canonicalizeUnique⟩, ⟨0x019c, 0x019c, 0x00d3, .canonicalizeRangeLo⟩,
   ⟨0x019d, 0x019d, 0x00d5, .canonicalizeRangeLo⟩, ⟨0x019e, 0x019e, 0x0082, .canonicalizeRangeLo⟩,
   ⟨0x019f, 0x019f, 0x00d6, .canonicalizeRangeLo⟩, ⟨0x01a0, 0x01a5, 0, .canonicalizeAlternatingAligned⟩,
   ⟨0x01a6, 0x01a6, 0x00da, .canonicalizeRangeLo⟩, ⟨0x01a7, 0x01a8, 0, .canonicalizeAlternatingUnaligned⟩,
   ⟨0x01a9, 0x01a9, 0x00da, .canonicalizeRangeLo⟩, ⟨0x01aa, 0x01ab, 0, .canonicalizeUnique⟩,
   ⟨0x01ac, 0x01ad, 0, .canonicalizeAlternatingAligned⟩, ⟨0x01ae, 0x01ae, 0x00da, .canonicalizeRangeLo⟩,
   ⟨0x01af, 0x01b0, 0, .canonicalizeAlternatingUnaligned⟩, ⟨0x01b1, 0x01b2, 0x00d9, .canonicalizeRangeLo⟩,
   ⟨0x01b3, 0x01b6, 0, .canonicalizeAlternatingUnaligned⟩, ⟨0x01b7, 0x01b7, 0x00db, .canonicalizeRangeLo⟩,
   ⟨0x01b8, 0x01b9, 0, .canonicalizeAlternatingAligned⟩, ⟨0x01ba, 0x01bb, 0, .canonicalizeUnique⟩,
   ⟨0x01bc, 0x01bd, 0, .canonicalizeAlternatingAligned⟩, ⟨0x01be, 0x01be, 0, .canonicalizeUnique⟩,
   ⟨0x01bf, 0x01bf, 0x0038, .canonicalizeRangeLo⟩, ⟨0x01c0, 0x01c3, 0, .canonicalizeUnique⟩,
   ⟨0x01c4, 0x01c6, 0, .canonicalizeSet⟩, ⟨0x01c7, 0x01c9, 0x0001, .canonicalizeSet⟩,
   ⟨0x01ca, 0x01cc, 0x0002, .canonicalizeSet⟩, ⟨0x01cd, 0x01dc, 0, .canonicalizeAlternatingUnaligned⟩,
   ⟨0x01dd, 0x01dd, 0x004f, .canonicalizeRangeHi⟩, ⟨0x01de, 0x01ef, 0, .canonicalizeAlternatingAligned⟩,
   ⟨0x01f0, 0x01f0, 0, .canonicalizeUnique⟩, ⟨0x01f1, 0x01f3, 0x0003, .canonicalizeSet⟩,
   ⟨0x01f4, 0x01f5, 0, .canonicalizeAlternatingAligned⟩, ⟨0x01f6, 0x01f6, 0x0061, .canonicalizeRangeHi⟩,
   ⟨0x01f7, 0x01f7, 0x0038, .canonicalizeRangeHi⟩, ⟨0x01f8, 0x021f, 0, .canonicalizeAlternatingAligned⟩,
   ⟨0x0220, 0x0220, 0x0082, .canonicalizeRangeHi⟩, ⟨0x0221, 0x0221, 0, .canonicalizeUnique⟩,
   ⟨0x0222, 0x0233, 0, .canonicalizeAlternatingAligned⟩, ⟨0x0234, 0x0239, 0, .canonicalizeUnique⟩,
   ⟨0x023a, 0x023a, 0x2a2b, .canonicalizeRangeLo⟩, ⟨0x023b, 0x023c, 0, .canonicalizeAlternatingUnaligned⟩,
   ⟨0x023d, 0x023d, 0x00a3, .canonicalizeRangeHi⟩, ⟨0x023e, 0x023e, 0x2a28, .canonicalizeRangeLo⟩,
   ⟨0x023f, 0x0240, 0x2a3f, .canonicalizeRangeLo⟩, ⟨0x0241, 0x0242, 0, .canonicalizeAlternatingUnaligned⟩,
   ⟨0x0243, 0x0243, 0x00c3, .canonicalizeRangeHi⟩, ⟨0x0244, 0x0244, 0x0045, .canonicalizeRangeLo⟩,
   ⟨0x0245, 0x0245, 0x0047, .canonicalizeRangeLo⟩, ⟨0x0246, 0x024f, 0, .canonicalizeAlternatingAligned⟩,
   ⟨0x0250, 0x0250, 0x2a1f, .canonicalizeRangeLo⟩, ⟨0x0251, 0x0251, 0x2a1c, .canonicalizeRangeLo⟩,
   ⟨0x0252, 0x0252, 0x2a1e, .canonicalizeRangeLo⟩, ⟨0x0253, 0x0253, 0x00d2, .canonicalizeRangeHi⟩,
   ⟨0x0254, 0x0254, 0x00ce, .canonicalizeRangeHi⟩, ⟨0x0255, 0x0255, 0, .canonicalizeUnique⟩,
   ⟨0x0256, 0x0257, 0x00cd, .canonicalizeRangeHi⟩, ⟨0x0258, 0x0258, 0, .canonicalizeUnique⟩,
   ⟨0x0259, 0x0259, 0x00ca, .canonicalizeRangeHi⟩, ⟨0x025a, 0x025a, 0, .canonicalizeUnique⟩,
   ⟨0x025b, 0x025b, 0x00cb, .canonicalizeRangeHi⟩, ⟨0x025c, 0x025f, 0, .canonicalizeUnique⟩,
   ⟨0x0260, 0x0260, 0x00cd, .canonicalizeRangeHi⟩, ⟨0x0261, 0x0262, 0, .canonicalizeUnique⟩,
   ⟨0x0263, 0x0263, 0x00cf, .canonicalizeRangeHi⟩, ⟨0x0264, 0x0264, 0, .canonicalizeUnique⟩,
   ⟨0x0265, 0x0265, 0xa528, .canonicalizeRangeLo⟩, ⟨0x0266, 0x0267, 0, .canonicalizeUnique⟩,
   ⟨0x0268, 0x0268, 0x00d1, .canonicalizeRangeHi⟩, ⟨0x0269, 0x0269, 0x00d3, .canonicalizeRangeHi⟩,
   ⟨0x026a, 0x026a, 0, .canonicalizeUnique⟩, ⟨0x026b, 0x026b, 0x29f7, .canonicalizeRangeLo⟩,
   ⟨0x026c, 0x026e, 0, .canonicalizeUnique⟩, ⟨0x026f, 0x026f, 0x00d3, .canonicalizeRangeHi⟩,
   ⟨0x0270, 0x0270, 0, .canonicalizeUnique⟩, ⟨0x0271, 0x0271, 0x29fd, .canonicalizeRangeLo⟩,
   ⟨0x0272, 0x0272, 0x00d5, .canonicalizeRangeHi⟩, ⟨0x0273, 0x0274, 0, .canonicalizeUnique⟩,
   ⟨0x0275, 0x0275, 0x00d6, .canonicalizeRangeHi⟩, ⟨0x0276, 0x027c, 0, .canonicalizeUnique⟩,
   ⟨0x027d, 0x027d, 0x29e7, .canonicalizeRangeLo⟩, ⟨0x027e, 0x027f, 0, .canonicalizeUnique⟩,
   ⟨0x0280, 0x0280, 0x00da, .canonicalizeRangeHi⟩, ⟨0x0281, 0x0282, 0, .canonicalizeUnique⟩,
   ⟨0x0283, 0x0283, 0x00da, .canonicalizeRangeHi⟩, ⟨0x0284, 0x0287, 0, .canonicalizeUnique⟩,
   ⟨0x0288, 0x0288, 0x00da, .canonicalizeRangeHi⟩, ⟨0x0289, 0x0289, 0x0045, .canonicalizeRangeHi⟩,
   ⟨0x028a, 0x028b, 0x00d9, .canonicalizeRangeHi⟩, ⟨0x028c, 0x028c, 0x0047, .canonicalizeRangeHi⟩,
   ⟨0x028d, 0x0291, 0, .canonicalizeUnique⟩, ⟨0x0292, 0x0292, 0x00db, .canonicalizeRangeHi⟩,
   ⟨0x0293, 0x0344, 0, .canonicalizeUnique⟩, ⟨0x0345, 0x0345, 0x0007, .canonicalizeSet⟩,
   ⟨0x0346, 0x036f, 0, .canonicalizeUnique⟩, ⟨0x0370, 0x0373, 0, .canonicalizeAlternatingAligned⟩,
   ⟨0x0374, 0x0375, 0, .canonicalizeUnique⟩, ⟨0x0376, 0x0377, 0, .canonicalizeAlternatingAligned⟩,
   ⟨0x0378, 0x037a, 0, .canonicalizeUnique⟩, ⟨0x037b, 0x037d, 0x0082, .canonicalizeRangeLo⟩,
   ⟨0x037e, 0x0385, 0, .canonicalizeUnique⟩, ⟨0x0386, 0x0386, 0x0026, .canonicalizeRangeLo⟩,
   ⟨0x0387, 0x0387, 0, .canonicalizeUnique⟩, ⟨0x0388, 0x038a, 0x0025, .canonicalizeRangeLo⟩,
   ⟨0x038b, 0x038b, 0, .canonicalizeUnique⟩, ⟨0x038c, 0x038c, 0x0040, .canonicalizeRangeLo⟩,
   ⟨0x038d, 0x038d, 0, .canonicalizeUnique⟩, ⟨0x038e, 0x038f, 0x003f, .canonicalizeRangeLo⟩,
   ⟨0x0390, 0x0390, 0, .canonicalizeUnique⟩, ⟨0x0391, 0x0391, 0x0020, .canonicalizeRangeLo⟩,
   ⟨0x0392, 0x0392, 0x0004, .canonicalizeSet⟩, ⟨0x0393, 0x0394, 0x0020, .canonicalizeRangeLo⟩,
   ⟨0x0395, 0x0395, 0x0005, .canonicalizeSet⟩, ⟨0x0396, 0x0397, 0x0020, .canonicalizeRangeLo⟩,
   ⟨0x0398, 0x0398, 0x0006, .canonicalizeSet⟩, ⟨0x0399, 0x0399, 0x0007, .canonicalizeSet⟩,
   ⟨0x039a, 0x039a, 0x0008, .canonicalizeSet⟩, ⟨0x039b, 0x039b, 0x0020, .canonicalizeRangeLo⟩,
   ⟨0x039c, 0x039c, 0x0009, .canonicalizeSet⟩, ⟨0x039d, 0x039f, 0x0020, .canonicalizeRangeLo⟩,
   ⟨0x03a0, 0x03a0, 0x000a, .canonicalizeSet⟩, ⟨0x03a1, 0x03a1, 0x000b, .canonicalizeSet⟩,
   ⟨0x03a2, 0x03a2, 0, .canonicalizeUnique⟩, ⟨0x03a3, 0x03a3, 0x000c, .canonicalizeSet⟩,
   ⟨0x03a4, 0x03a5, 0x0020, .canonicalizeRangeLo⟩, ⟨0x03a6, 0x03a6, 0x000d, .canonicalizeSet⟩,
   ⟨0x03a7, 0x03ab, 0x0020, .canonicalizeRangeLo⟩, ⟨0x03ac, 0x03ac, 0x0026, .canonicalizeRangeHi⟩,
   ⟨0x03ad, 0x03af, 0x0025, .canonicalizeRangeHi⟩, ⟨0x03b0, 0x03b0, 0, .canonicalizeUnique⟩,
   ⟨0x03b1, 0x03b1, 0x0020, .canonicalizeRangeHi⟩, ⟨0x03b2, 0x03b2, 0x0004, .canonicalizeSet⟩,
   ⟨0x03b3, 0x03b4, 0x0020, .canonicalizeRangeHi⟩, ⟨0x03b5, 0x03b5, 0x0005, .canonicalizeSet⟩,
   ⟨0x03b6, 0x03b7, 0x0020, .canonicalizeRangeHi⟩, ⟨0x03b8, 0x03b8, 0x0006, .canonicalizeSet⟩,
   ⟨0x03b9, 0x03b9, 0x0007, .canonicalizeSet⟩, ⟨0x03ba, 0x03ba, 0x0008, .canonicalizeSet⟩,
   ⟨0x03bb, 0x03bb, 0x0020, .canonicalizeRangeHi⟩, ⟨0x03bc, 0x03bc, 0x0009, .canonicalizeSet⟩,
   ⟨0x03bd, 0x03bf, 0x0020, .canonicalizeRangeHi⟩, ⟨0x03c0, 0x03c0, 0x000a, .canonicalizeSet⟩,
   ⟨0x03c1, 0x03c1, 0x000b, .canonicalizeSet⟩, ⟨0x03c2, 0x03c3, 0x000c, .canonicalizeSet⟩,
   ⟨0x03c4, 0x03c5, 0x0020, .canonicalizeRangeHi⟩, ⟨0x03c6, 0x03c6, 0x000d, .canonicalizeSet⟩,
   ⟨0x03c7, 0x03cb, 0x0020, .canonicalizeRangeHi⟩, ⟨0x03cc, 0x03cc, 0x0040, .canonicalizeRangeHi⟩,
   ⟨0x03cd, 0x03ce, 0x003f, .canonicalizeRangeHi⟩, ⟨0x03cf, 0x03cf, 0x0008, .canonicalizeRangeLo⟩,
   ⟨0x03d0, 0x03d0, 0x0004, .canonicalizeSet⟩, ⟨0x03d1, 0x03d1, 0x0006, .canonicalizeSet⟩,
   ⟨0x03d2, 0x03d4, 0, .canonicalizeUnique⟩, ⟨0x03d5, 0x03d5, 0x000d, .canonicalizeSet⟩,
   ⟨0x03d6, 0x03d6, 0x000a, .canonicalizeSet⟩, ⟨0x03d7, 0x03d7, 0x0008, .canonicalizeRangeHi⟩,
   ⟨0x03d8, 0x03ef, 0, .canonicalizeAlternatingAligned⟩, ⟨0x03f0, 0x03f0, 0x0008, .canonicalizeSet⟩,
   ⟨0x03f1, 0x03f1, 0x000b, .canonicalizeSet⟩, ⟨0x03f2, 0x03f2, 0x0007, .canonicalizeRangeLo⟩,
   ⟨0x03f3, 0x03f4, 0, .canonicalizeUnique⟩, ⟨0x03f5, 0x03f5, 0x0005, .canonicalizeSet⟩,
   ⟨0x03f6, 0x03f6, 0, .canonicalizeUnique⟩, ⟨0x03f7, 0x03f8, 0, .canonicalizeAlternatingUnaligned⟩,
   ⟨0x03f9, 0x03f9, 0x0007, .canonicalizeRangeHi⟩, ⟨0x03fa, 0x03fb, 0, .canonicalizeAlternatingAligned⟩,
   ⟨0x03fc, 0x03fc, 0, .canonicalizeUnique⟩, ⟨0x03fd, 0x03ff, 0x0082, .canonicalizeRangeHi⟩,
   ⟨0x0400, 0x040f, 0x0050, .canonicalizeRangeLo⟩, ⟨0x0410, 0x042f, 0x0020, .canonicalizeRangeLo⟩,
   ⟨0x0430, 0x044f, 0x0020, .canonicalizeRangeHi⟩, ⟨0x0450, 0x045f, 0x0050, .canonicalizeRangeHi⟩,
   ⟨0x0460, 0x0481, 0, .canonicalizeAlternatingAligned⟩, ⟨0x0482, 0x0489, 0, .canonicalizeUnique⟩,
   ⟨0x048a, 0x04bf, 0, .canonicalizeAlternatingAligned⟩, ⟨0x04c0, 0x04c0, 0x000f, .canonicalizeRangeLo⟩,
   ⟨0x04c1, 0x04ce, 0, .canonicalizeAlternatingUnaligned⟩, ⟨0x04cf, 0x04cf, 0x000f, .canonicalizeRangeHi⟩,
   ⟨0x04d0, 0x0527, 0, .canonicalizeAlternatingAligned⟩, ⟨0x0528, 0x0530, 0, .canonicalizeUnique⟩,
   ⟨0x0531, 0x0556, 0x0030, .canonicalizeRangeLo⟩, ⟨0x0557, 0x0560, 0, .canonicalizeUnique⟩,
   ⟨0x0561, 0x0586, 0x0030, .canonicalizeRangeHi⟩, ⟨0x0587, 0x109f, 0, .canonicalizeUnique⟩,
   ⟨0x10a0, 0x10c5, 0x1c60, .canonicalizeRangeLo⟩, ⟨0x10c6, 0x1d78, 0, .canonicalizeUnique⟩,
   ⟨0x1d79, 0x1d79, 0x8a04, .canonicalizeRangeLo⟩, ⟨0x1d7a, 0x1d7c, 0, .canonicalizeUnique⟩,
   ⟨0x1d7d, 0x1d7d, 0x0ee6, .canonicalizeRangeLo⟩, ⟨0x1d7e, 0x1dff, 0, .canonicalizeUnique⟩,
   ⟨0x1e00, 0x1e5f, 0, .canonicalizeAlternatingAligned⟩, ⟨0x1e60, 0x1e61, 0x000e, .canonicalizeSet⟩,
   ⟨0x1e62, 0x1e95, 0, .canonicalizeAlternatingAligned⟩, ⟨0x1e96, 0x1e9a, 0, .canonicalizeUnique⟩,
   ⟨0x1e9b, 0x1e9b, 0x000e, .canonicalizeSet⟩, ⟨0x1e9c, 0x1e9f, 0, .canonicalizeUnique⟩,
   ⟨0x1ea0, 0x1eff, 0, .canonicalizeAlternatingAligned⟩, ⟨0x1f00, 0x1f07, 0x0008, .canonicalizeRangeLo⟩,
   ⟨0x1f08, 0x1f0f, 0x0008, .canonicalizeRangeHi⟩, ⟨0x1f10, 0x1f15, 0x0008, .canonicalizeRangeLo⟩,
   ⟨0x1f16, 0x1f17, 0, .canonicalizeUnique⟩, ⟨0x1f18, 0x1f1d, 0x0008, .canonicalizeRangeHi⟩,
   ⟨0x1f1e, 0x1f1f, 0, .canonicalizeUnique⟩, ⟨0x1f20, 0x1f27, 0x0008, .canonicalizeRangeLo⟩,
   ⟨0x1f28, 0x1f2f, 0x0008, .canonicalizeRangeHi⟩, ⟨0x1f30, 0x1f37, 0x0008, .canonicalizeRangeLo⟩,
   ⟨0x1f38, 0x1f3f, 0x0008, .canonicalizeRangeHi⟩, ⟨0x1f40, 0x1f45, 0x0008, .canonicalizeRangeLo⟩,
   ⟨0x1f46, 0x1f47, 0, .canonicalizeUnique⟩, ⟨0x1f48, 0x1f4d, 0x0008, .canonicalizeRangeHi⟩,
   ⟨0x1f4e, 0x1f50, 0, .canonicalizeUnique⟩, ⟨0x1f51, 0x1f51, 0x0008, .canonicalizeRangeLo⟩,
   ⟨0x1f52, 0x1f52, 0, .canonicalizeUnique⟩, ⟨0x1f53, 0x1f53, 0x0008, .canonicalizeRangeLo⟩,
   ⟨0x1f54, 0x1f54, 0, .canonicalizeUnique⟩, ⟨0x1f55, 0x1f55, 0x0008, .canonicalizeRangeLo⟩,
   ⟨0x1f56, 0x1f56, 0, .canonicalizeUnique⟩, ⟨0x1f57, 0x1f57, 0x0008, .canonicalizeRangeLo⟩,
   ⟨0x1f58, 0x1f58, 0, .canonicalizeUnique⟩, ⟨0x1f59, 0x1f59, 0x0008, .canonicalizeRangeHi⟩,
   ⟨0x1f5a, 0x1f5a, 0, .canonicalizeUnique⟩, ⟨0x1f5b, 0x1f5b, 0x0008, .canonicalizeRangeHi⟩,
   ⟨0x1f5c, 0x1f5c, 0, .canonicalizeUnique⟩, ⟨0x1f5d, 0x1f5d, 0x0008, .canonicalizeRangeHi⟩,
   ⟨0x1f5e, 0x1f5e, 0, .canonicalizeUnique⟩, ⟨0x1f5f, 0x1f5f, 0x0008, .canonicalizeRangeHi⟩,
   ⟨0x1f60, 0x1f67, 0x0008, .canonicalizeRangeLo⟩, ⟨0x1f68, 0x1f6f, 0x0008, .canonicalizeRangeHi⟩,
   ⟨0x1f70, 0x1f71, 0x004a, .canonicalizeRangeLo⟩, ⟨0x1f72, 0x1f75, 0x0056, .canonicalizeRangeLo⟩,
   ⟨0x1f76, 0x1f77, 0x0064, .canonicalizeRangeLo⟩, ⟨0x1f78, 0x1f79, 0x0080, .canonicalizeRangeLo⟩,
   ⟨0x1f7a, 0x1f7b, 0x0070, .canonicalizeRangeLo⟩, ⟨0x1f7c, 0x1f7d, 0x007e, .canonicalizeRangeLo⟩,
   ⟨0x1f7e, 0x1faf, 0, .canonicalizeUnique⟩, ⟨0x1fb0, 0x1fb1, 0x0008, .canonicalizeRangeLo⟩,
   ⟨0x1fb2, 0x1fb7, 0, .canonicalizeUnique⟩, ⟨0x1fb8, 0x1fb9, 0x0008, .canonicalizeRangeHi⟩,
   ⟨0x1fba, 0x1fbb, 0x004a, .canonicalizeRangeHi⟩, ⟨0x1fbc, 0x1fbd, 0, .canonicalizeUnique⟩,
   ⟨0x1fbe, 0x1fbe, 0x0007, .canonicalizeSet⟩, ⟨0x1fbf, 0x1fc7, 0, .canonicalizeUnique⟩,
   ⟨0x1fc8, 0x1fcb, 0x0056, .canonicalizeRangeHi⟩, ⟨0x1fcc, 0x1fcf, 0, .canonicalizeUnique⟩,
   ⟨0x1fd0, 0x1fd1, 0x0008, .canonicalizeRangeLo⟩, ⟨0x1fd2, 0x1fd7, 0, .canonicalizeUnique⟩,
   ⟨0x1fd8, 0x1fd9, 0x0008, .canonicalizeRangeHi⟩, ⟨0x1fda, 0x1fdb, 0x0064, .canonicalizeRangeHi⟩,
   ⟨0x1fdc, 0x1fdf, 0, .canonicalizeUnique⟩, ⟨0x1fe0, 0x1fe1, 0x0008, .canonicalizeRangeLo⟩,
   ⟨0x1fe2, 0x1fe4, 0, .canonicalizeUnique⟩, ⟨0x1fe5, 0x1fe5, 0x0007, .canonicalizeRangeLo⟩,
   ⟨0x1fe6, 0x1fe7, 0, .canonicalizeUnique⟩, ⟨0x1fe8, 0x1fe9, 0x0008, .canonicalizeRangeHi⟩,
   ⟨0x1fea, 0x1feb, 0x0070, .canonicalizeRangeHi⟩, ⟨0x1fec, 0x1fec, 0x0007, .canonicalizeRangeHi⟩,
   ⟨0x1fed, 0x1ff7, 0, .canonicalizeUnique⟩, ⟨0x1ff8, 0x1ff9, 0x0080, .canonicalizeRangeHi⟩,
   ⟨0x1ffa, 0x1ffb, 0x007e, .canonicalizeRangeHi⟩, ⟨0x1ffc, 0x2131, 0, .canonicalizeUnique⟩,
   ⟨0x2132, 0x2132, 0x001c, .canonicalizeRangeLo⟩, ⟨0x2133, 0x214d, 0, .canonicalizeUnique⟩,
   ⟨0x214e, 0x214e, 0x001c, .canonicalizeRangeHi⟩, ⟨0x214f, 0x215f, 0, .canonicalizeUnique⟩,
   ⟨0x2160, 0x216f, 0x0010, .canonicalizeRangeLo⟩, ⟨0x2170, 0x217f, 0x0010, .canonicalizeRangeHi⟩,
   ⟨0x2180, 0x2182, 0, .canonicalizeUnique⟩, ⟨0x2183, 0x2184, 0, .canonicalizeAlternatingUnaligned⟩,
   ⟨0x2185, 0x24b5, 0, .canonicalizeUnique⟩, ⟨0x24b6, 0x24cf, 0x001a, .canonicalizeRangeLo⟩,
   ⟨0x24d0, 0x24e9, 0x001a, .canonicalizeRangeHi⟩, ⟨0x24ea, 0x2bff, 0, .canonicalizeUnique⟩,
   ⟨0x2c00, 0x2c2e, 0x0030, .canonicalizeRangeLo⟩, ⟨0x2c2f, 0x2c2f, 0, .canonicalizeUnique⟩,
   ⟨0x2c30, 0x2c5e, 0x0030, .canonicalizeRangeHi⟩, ⟨0x2c5f, 0x2c5f, 0, .canonicalizeUnique⟩,
   ⟨0x2c60, 0x2c61, 0, .canonicalizeAlternatingAligned⟩, ⟨0x2c62, 0x2c62, 0x29f7, .canonicalizeRangeHi⟩,
   ⟨0x2c63, 0x2c63, 0x0ee6, .canonicalizeRangeHi⟩, ⟨0x2c64, 0x2c64, 0x29e7, .canonicalizeRangeHi⟩,
   ⟨0x2c65, 0x2c65, 0x2a2b, .canonicalizeRangeHi⟩, ⟨0x2c66, 0x2c66, 0x2a28, .canonicalizeRangeHi⟩,
   ⟨0x2c67, 0x2c6c, 0, .canonicalizeAlternatingUnaligned⟩, ⟨0x2c6d, 0x2c6d, 0x2a1c, .canonicalizeRangeHi⟩,
   ⟨0x2c6e, 0x2c6e, 0x29fd, .canonicalizeRangeHi⟩, ⟨0x2c6f, 0x2c6f, 0x2a1f, .canonicalizeRangeHi⟩,
   ⟨0x2c70, 0x2c70, 0x2a1e, .canonicalizeRangeHi⟩, ⟨0x2c71, 0x2c71, 0, .canonicalizeUnique⟩,
   ⟨0x2c72, 0x2c73, 0, .canonicalizeAlternatingAligned⟩, ⟨0x2c74, 0x2c74, 0, .canonicalizeUnique⟩,
   ⟨0x2c75, 0x2c76, 0, .canonicalizeAlternatingUnaligned⟩, ⟨0x2c77, 0x2c7d, 0, .canonicalizeUnique⟩,
   ⟨0x2c7e, 0x2c7f, 0x2a3f, .canonicalizeRangeHi⟩, ⟨0x2c80, 0x2ce3, 0, .canonicalizeAlternatingAligned⟩,
   ⟨0x2ce4, 0x2cea, 0, .canonicalizeUnique⟩, ⟨0x2ceb, 0x2cee, 0, .canonicalizeAlternatingUnaligned⟩,
   ⟨0x2cef, 0x2cff, 0, .canonicalizeUnique⟩, ⟨0x2d00, 0x2d25, 0x1c60, .canonicalizeRangeHi⟩,
   ⟨0x2d26, 0xa63f, 0, .canonicalizeUnique⟩, ⟨0xa640, 0xa66d, 0, .canonicalizeAlternatingAligned⟩,
   ⟨0xa66e, 0xa67f, 0, .canonicalizeUnique⟩, ⟨0xa680, 0xa697, 0, .canonicalizeAlternatingAligned⟩,
   ⟨0xa698, 0xa721, 0, .canonicalizeUnique⟩, ⟨0xa722, 0xa72f, 0, .canonicalizeAlternatingAligned⟩,
   ⟨0xa730, 0xa731, 0, .canonicalizeUnique⟩, ⟨0xa732, 0xa76f, 0, .canonicalizeAlternatingAligned⟩,
   ⟨0xa770, 0xa778, 0, .canonicalizeUnique⟩, ⟨0xa779, 0xa77c, 0, .canonicalizeAlternatingUnaligned⟩,
   ⟨0xa77d, 0xa77d, 0x8a04, .canonicalizeRangeHi⟩, ⟨0xa77e, 0xa787, 0, .canonicalizeAlternatingAligned⟩,
   ⟨0xa788, 0xa78a, 0, .canonicalizeUnique⟩, ⟨0xa78b, 0xa78c, 0, .canonicalizeAlternatingUnaligned⟩,
   ⟨0xa78d, 0xa78d, 0xa528, .canonicalizeRangeHi⟩, ⟨0xa78e, 0xa78f, 0, .canonicalizeUnique⟩,
   ⟨0xa790, 0xa791, 0, .canonicalizeAlternatingAligned⟩, ⟨0xa792, 0xa79f, 0, .canonicalizeUnique⟩,
   ⟨0xa7a0, 0xa7a9, 0, .canonicalizeAlternatingAligned⟩, ⟨0xa7aa, 0xff20, 0, .canonicalizeUnique⟩,
   ⟨0xff21, 0xff3a, 0x0020, .canonicalizeRangeLo⟩, ⟨0xff3b, 0xff40, 0, .canonicalizeUnique⟩,
   ⟨0xff41, 0xff5a, 0x0020, .canonicalizeRangeHi⟩, ⟨0xff5b, 0xffff, 0, .canonicalizeUnique⟩]

/-- The loop of `rangeInfoFor`, with a bound on its turns; it returns the table from the range it finds on. -/
def rangeInfoFrom (ch : UChar) : Nat → List UCS2CanonicalizationRange → Nat → Option (List UCS2CanonicalizationRange)
  | 0, _, _ => none
  | turns + 1, info, entries =>
    match info.drop (entries / 2) with
    | [] => none
    | candidateInfo :: rest =>
      if ch < candidateInfo.first then rangeInfoFrom ch turns info (entries / 2)
      else if ch ≤ candidateInfo.last then some (candidateInfo :: rest)
      else rangeInfoFrom ch turns rest (entries - (entries / 2 + 1))

def rangeInfoFor (ch : UChar) : Option (List UCS2CanonicalizationRange) :=
  rangeInfoFrom ch (rangeInfo.length + 1) rangeInfo rangeInfo.length

/-- `getCanonicalPair`, which is not called for a unique character and for a set. -/
def getCanonicalPair (info : UCS2CanonicalizationRange) (ch : UChar) : Option UChar :=
  match info.type with
  | .canonicalizeRangeLo => some (ch + info.value)
  | .canonicalizeRangeHi => some (ch - info.value)
  | .canonicalizeAlternatingAligned => some (ch ^^^ 1)
  | .canonicalizeAlternatingUnaligned => some (((ch - 1) ^^^ 1) + 1)
  | _ => none

/-! ## The table covers all characters -/

/-- The ranges cover the characters from `lo` on, without gaps and without overlap. -/
def Tiles (lo : Nat) : List UCS2CanonicalizationRange → Prop
  | [] => lo = 65536
  | info :: rest => info.first.toNat = lo ∧ info.first ≤ info.last ∧ Tiles (info.last.toNat + 1) rest

instance Tiles.decidable : (lo : Nat) → (table : List UCS2CanonicalizationRange) → Decidable (Tiles lo table)
  | lo, [] => inferInstanceAs (Decidable (lo = 65536))
  | lo, info :: rest =>
    have := Tiles.decidable (info.last.toNat + 1) rest
    inferInstanceAs (Decidable (info.first.toNat = lo ∧ info.first ≤ info.last ∧ Tiles (info.last.toNat + 1) rest))

theorem rangeInfo_tiles : Tiles 0 rangeInfo := by decide +kernel

/-- Where the ranges after the first `n` begin. -/
theorem Tiles.drop {lo : Nat} {table : List UCS2CanonicalizationRange} (h : Tiles lo table) (n : Nat) :
    ∃ lo', lo ≤ lo' ∧ Tiles lo' (table.drop n) := by
  induction n generalizing lo table with
  | zero => exact ⟨lo, Nat.le_refl lo, h⟩
  | succ n ih =>
    cases table with
    | nil => exact ⟨lo, Nat.le_refl lo, h⟩
    | cons info rest =>
      obtain ⟨hfirst, hle, hrest⟩ := h
      obtain ⟨lo', hlo, htiles⟩ := ih hrest
      rw [UInt16.le_iff_toNat_le] at hle
      exact ⟨lo', by omega, htiles⟩

/-- A character is before what follows the first `n` ranges. -/
def Before (ch : UChar) (table : List UCS2CanonicalizationRange) : Prop := ∀ info ∈ table.head?, ch < info.first

theorem rangeInfoFrom_spec {ch : UChar} {turns : Nat} {lo entries : Nat} {table : List UCS2CanonicalizationRange}
    (htiles : Tiles lo table) (hlo : lo ≤ ch.toNat) (hbefore : Before ch (table.drop entries))
    (hentries : entries ≤ table.length) (hturns : entries < turns) :
    ∃ info rest, rangeInfoFrom ch turns table entries = some (info :: rest) ∧ info :: rest <:+ table ∧
      info.first ≤ ch ∧ ch ≤ info.last := by
  induction turns generalizing lo entries table with
  | zero => exact absurd hturns (Nat.not_lt_zero _)
  | succ turns ih =>
    -- Some range is left, since the ranges reach to the last character.
    have hpos : 0 < entries := by
      rcases Nat.eq_zero_or_pos entries with rfl | hpos
      · cases table with
        | nil =>
          have hlast := ch.toNat_lt
          rw [Tiles] at htiles
          omega
        | cons info rest =>
          have hlt := hbefore info rfl
          rw [UInt16.lt_iff_toNat_lt, htiles.1] at hlt
          omega
      · exact hpos
    have hhalf : entries / 2 < entries := Nat.div_lt_self hpos (by decide)
    obtain ⟨middle, hmiddle, hdrop⟩ := htiles.drop (entries / 2)
    have hsuffix := List.drop_suffix (entries / 2) table
    rw [rangeInfoFrom]
    cases hcandidate : table.drop (entries / 2) with
    | nil =>
      rw [List.drop_eq_nil_iff] at hcandidate
      omega
    | cons candidateInfo rest =>
      rw [hcandidate] at hdrop hsuffix
      obtain ⟨hfirst, hle, hrest⟩ := hdrop
      simp only
      split
      · rename_i hlt
        refine ih htiles hlo ?_ (by omega) (by omega)
        intro info hinfo
        rw [hcandidate] at hinfo
        cases hinfo
        exact hlt
      · split
        · rename_i hge hlast
          exact ⟨candidateInfo, rest, rfl, hsuffix, UInt16.not_lt.mp hge, hlast⟩
        · rename_i _ hlast
          have hrestDrop : rest = table.drop (entries / 2 + 1) := by
            rw [← List.drop_drop, hcandidate, List.drop_succ_cons, List.drop_zero]
          have hlength : rest.length = table.length - (entries / 2 + 1) := by rw [hrestDrop, List.length_drop]
          rw [UInt16.not_le, UInt16.lt_iff_toNat_lt] at hlast
          have hbefore' : Before ch (rest.drop (entries - (entries / 2 + 1))) := by
            rw [hrestDrop, List.drop_drop]
            have heq : entries / 2 + 1 + (entries - (entries / 2 + 1)) = entries := by omega
            rw [heq]
            exact hbefore
          obtain ⟨info, left, hfound, hleft, hmem⟩ := ih hrest hlast hbefore' (by omega) (by omega)
          exact ⟨info, left, hfound, (hleft.trans (List.suffix_cons candidateInfo rest)).trans hsuffix, hmem⟩

theorem rangeInfoFrom_table {table : List UCS2CanonicalizationRange} (h : Tiles 0 table) (ch : UChar) :
    ∃ info rest, rangeInfoFrom ch (table.length + 1) table table.length = some (info :: rest) ∧
      info :: rest <:+ table ∧ info.first ≤ ch ∧ ch ≤ info.last := by
  refine rangeInfoFrom_spec h (Nat.zero_le _) ?_ (Nat.le_refl _) (Nat.lt_succ_self _)
  intro info hinfo
  rw [List.drop_length] at hinfo
  exact absurd hinfo (by simp)

/-- **The search ends at the range of the character.** -/
theorem rangeInfoFor_spec (ch : UChar) :
    ∃ info rest, rangeInfoFor ch = some (info :: rest) ∧ info :: rest <:+ rangeInfo ∧
      info.first ≤ ch ∧ ch ≤ info.last :=
  rangeInfoFrom_table rangeInfo_tiles ch

/-- The ranges from any range on cover all characters from there. -/
theorem Tiles.of_suffix {lo : Nat} {table suffix : List UCS2CanonicalizationRange} (h : Tiles lo table)
    (hsuffix : suffix <:+ table) : ∃ lo', Tiles lo' suffix := by
  obtain ⟨lo', -, htiles⟩ := h.drop (table.length - suffix.length)
  rw [← List.suffix_iff_eq_drop.mp hsuffix] at htiles
  exact ⟨lo', htiles⟩

theorem rangeInfo_sets : ∀ info ∈ rangeInfo, info.type = .canonicalizeSet →
    info.value.toNat < characterSetInfo.length := by
  have hall : (rangeInfo.all fun info =>
      decide (info.type = .canonicalizeSet → info.value.toNat < characterSetInfo.length)) = true := by decide +kernel
  intro info hinfo
  exact of_decide_eq_true (List.all_eq_true.mp hall info hinfo)

end WebKit.Yarr
