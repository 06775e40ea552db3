import Restyler.Encoding.CodePage

/-!
# The code pages

One table for each single-byte character set, from the registered character sets of IBM, ISO,
Windows and others. Most extend ASCII and list their upper half only; the EBCDIC pages list all
256 bytes.
-/

namespace Restyler.CodePage

def ibm037 : CodePage where
  codes :=
    span 0x0 0x3 ++ [0x9C, 0x9, 0x86, 0x7F, 0x97, 0x8D, 0x8E] ++ span 0xB 0x13 ++ [0x9D, 0x85,
    0x8, 0x87, 0x18, 0x19, 0x92, 0x8F] ++ span 0x1C 0x1F ++ span 0x80 0x84 ++ [0xA, 0x17, 0x1B]
    ++ span 0x88 0x8C ++ [0x5, 0x6, 0x7, 0x90, 0x91, 0x16] ++ span 0x93 0x96 ++ [0x4]
    ++ span 0x98 0x9B ++ [0x14, 0x15, 0x9E, 0x1A, 0x20, 0xA0, 0xE2, 0xE4, 0xE0, 0xE1, 0xE3, 0xE5,
    0xE7, 0xF1, 0xA2, 0x2E, 0x3C, 0x28, 0x2B, 0x7C, 0x26, 0xE9, 0xEA, 0xEB, 0xE8, 0xED, 0xEE,
    0xEF, 0xEC, 0xDF, 0x21, 0x24, 0x2A, 0x29, 0x3B, 0xAC, 0x2D, 0x2F, 0xC2, 0xC4, 0xC0, 0xC1,
    0xC3, 0xC5, 0xC7, 0xD1, 0xA6, 0x2C, 0x25, 0x5F, 0x3E, 0x3F, 0xF8, 0xC9, 0xCA, 0xCB, 0xC8,
    0xCD, 0xCE, 0xCF, 0xCC, 0x60, 0x3A, 0x23, 0x40, 0x27, 0x3D, 0x22, 0xD8] ++ span 0x61 0x69
    ++ [0xAB, 0xBB, 0xF0, 0xFD, 0xFE, 0xB1, 0xB0] ++ span 0x6A 0x72 ++ [0xAA, 0xBA, 0xE6, 0xB8,
    0xC6, 0xA4, 0xB5, 0x7E] ++ span 0x73 0x7A ++ [0xA1, 0xBF, 0xD0, 0xDD, 0xDE, 0xAE, 0x5E, 0xA3,
    0xA5, 0xB7, 0xA9, 0xA7, 0xB6, 0xBC, 0xBD, 0xBE, 0x5B, 0x5D, 0xAF, 0xA8, 0xB4, 0xD7, 0x7B]
    ++ span 0x41 0x49 ++ [0xAD, 0xF4, 0xF6, 0xF2, 0xF3, 0xF5, 0x7D] ++ span 0x4A 0x52 ++ [0xB9,
    0xFB, 0xFC, 0xF9, 0xFA, 0xFF, 0x5C, 0xF7] ++ span 0x53 0x5A ++ [0xB2, 0xD4, 0xD6, 0xD2, 0xD3,
    0xD5] ++ span 0x30 0x39 ++ [0xB3, 0xDB, 0xDC, 0xD9, 0xDA, 0x9F]

def ibm437 : CodePage := .extending <|
    [0xC7, 0xFC, 0xE9, 0xE2, 0xE4, 0xE0, 0xE5, 0xE7, 0xEA, 0xEB, 0xE8, 0xEF, 0xEE, 0xEC, 0xC4,
    0xC5, 0xC9, 0xE6, 0xC6, 0xF4, 0xF6, 0xF2, 0xFB, 0xF9, 0xFF, 0xD6, 0xDC, 0xA2, 0xA3, 0xA5,
    0x20A7, 0x192, 0xE1, 0xED, 0xF3, 0xFA, 0xF1, 0xD1, 0xAA, 0xBA, 0xBF, 0x2310, 0xAC, 0xBD,
    0xBC, 0xA1, 0xAB, 0xBB, 0x2591, 0x2592, 0x2593, 0x2502, 0x2524, 0x2561, 0x2562, 0x2556,
    0x2555, 0x2563, 0x2551, 0x2557, 0x255D, 0x255C, 0x255B, 0x2510, 0x2514, 0x2534, 0x252C,
    0x251C, 0x2500, 0x253C, 0x255E, 0x255F, 0x255A, 0x2554, 0x2569, 0x2566, 0x2560, 0x2550,
    0x256C, 0x2567, 0x2568, 0x2564, 0x2565, 0x2559, 0x2558, 0x2552, 0x2553, 0x256B, 0x256A,
    0x2518, 0x250C, 0x2588, 0x2584, 0x258C, 0x2590, 0x2580, 0x3B1, 0xDF, 0x393, 0x3C0, 0x3A3,
    0x3C3, 0xB5, 0x3C4, 0x3A6, 0x398, 0x3A9, 0x3B4, 0x221E, 0x3C6, 0x3B5, 0x2229, 0x2261, 0xB1,
    0x2265, 0x2264, 0x2320, 0x2321, 0xF7, 0x2248, 0xB0, 0x2219, 0xB7, 0x221A, 0x207F, 0xB2,
    0x25A0, 0xA0]

def ibm850 : CodePage := .extending <|
    [0xC7, 0xFC, 0xE9, 0xE2, 0xE4, 0xE0, 0xE5, 0xE7, 0xEA, 0xEB, 0xE8, 0xEF, 0xEE, 0xEC, 0xC4,
    0xC5, 0xC9, 0xE6, 0xC6, 0xF4, 0xF6, 0xF2, 0xFB, 0xF9, 0xFF, 0xD6, 0xDC, 0xF8, 0xA3, 0xD8,
    0xD7, 0x192, 0xE1, 0xED, 0xF3, 0xFA, 0xF1, 0xD1, 0xAA, 0xBA, 0xBF, 0xAE, 0xAC, 0xBD, 0xBC,
    0xA1, 0xAB, 0xBB, 0x2591, 0x2592, 0x2593, 0x2502, 0x2524, 0xC1, 0xC2, 0xC0, 0xA9, 0x2563,
    0x2551, 0x2557, 0x255D, 0xA2, 0xA5, 0x2510, 0x2514, 0x2534, 0x252C, 0x251C, 0x2500, 0x253C,
    0xE3, 0xC3, 0x255A, 0x2554, 0x2569, 0x2566, 0x2560, 0x2550, 0x256C, 0xA4, 0xF0, 0xD0, 0xCA,
    0xCB, 0xC8, 0x131, 0xCD, 0xCE, 0xCF, 0x2518, 0x250C, 0x2588, 0x2584, 0xA6, 0xCC, 0x2580,
    0xD3, 0xDF, 0xD4, 0xD2, 0xF5, 0xD5, 0xB5, 0xFE, 0xDE, 0xDA, 0xDB, 0xD9, 0xFD, 0xDD, 0xAF,
    0xB4, 0xAD, 0xB1, 0x2017, 0xBE, 0xB6, 0xA7, 0xF7, 0xB8, 0xB0, 0xA8, 0xB7, 0xB9, 0xB3, 0xB2,
    0x25A0, 0xA0]

def ibm852 : CodePage := .extending <|
    [0xC7, 0xFC, 0xE9, 0xE2, 0xE4, 0x16F, 0x107, 0xE7, 0x142, 0xEB, 0x150, 0x151, 0xEE, 0x179,
    0xC4, 0x106, 0xC9, 0x139, 0x13A, 0xF4, 0xF6, 0x13D, 0x13E, 0x15A, 0x15B, 0xD6, 0xDC, 0x164,
    0x165, 0x141, 0xD7, 0x10D, 0xE1, 0xED, 0xF3, 0xFA, 0x104, 0x105, 0x17D, 0x17E, 0x118, 0x119,
    0xAC, 0x17A, 0x10C, 0x15F, 0xAB, 0xBB, 0x2591, 0x2592, 0x2593, 0x2502, 0x2524, 0xC1, 0xC2,
    0x11A, 0x15E, 0x2563, 0x2551, 0x2557, 0x255D, 0x17B, 0x17C, 0x2510, 0x2514, 0x2534, 0x252C,
    0x251C, 0x2500, 0x253C, 0x102, 0x103, 0x255A, 0x2554, 0x2569, 0x2566, 0x2560, 0x2550, 0x256C,
    0xA4, 0x111, 0x110, 0x10E, 0xCB, 0x10F, 0x147, 0xCD, 0xCE, 0x11B, 0x2518, 0x250C, 0x2588,
    0x2584, 0x162, 0x16E, 0x2580, 0xD3, 0xDF, 0xD4, 0x143, 0x144, 0x148, 0x160, 0x161, 0x154,
    0xDA, 0x155, 0x170, 0xFD, 0xDD, 0x163, 0xB4, 0xAD, 0x2DD, 0x2DB, 0x2C7, 0x2D8, 0xA7, 0xF7,
    0xB8, 0xB0, 0xA8, 0x2D9, 0x171, 0x158, 0x159, 0x25A0, 0xA0]

def ibm855 : CodePage := .extending <|
    [0x452, 0x402, 0x453, 0x403, 0x451, 0x401, 0x454, 0x404, 0x455, 0x405, 0x456, 0x406, 0x457,
    0x407, 0x458, 0x408, 0x459, 0x409, 0x45A, 0x40A, 0x45B, 0x40B, 0x45C, 0x40C, 0x45E, 0x40E,
    0x45F, 0x40F, 0x44E, 0x42E, 0x44A, 0x42A, 0x430, 0x410, 0x431, 0x411, 0x446, 0x426, 0x434,
    0x414, 0x435, 0x415, 0x444, 0x424, 0x433, 0x413, 0xAB, 0xBB, 0x2591, 0x2592, 0x2593, 0x2502,
    0x2524, 0x445, 0x425, 0x438, 0x418, 0x2563, 0x2551, 0x2557, 0x255D, 0x439, 0x419, 0x2510,
    0x2514, 0x2534, 0x252C, 0x251C, 0x2500, 0x253C, 0x43A, 0x41A, 0x255A, 0x2554, 0x2569, 0x2566,
    0x2560, 0x2550, 0x256C, 0xA4, 0x43B, 0x41B, 0x43C, 0x41C, 0x43D, 0x41D, 0x43E, 0x41E, 0x43F,
    0x2518, 0x250C, 0x2588, 0x2584, 0x41F, 0x44F, 0x2580, 0x42F, 0x440, 0x420, 0x441, 0x421,
    0x442, 0x422, 0x443, 0x423, 0x436, 0x416, 0x432, 0x412, 0x44C, 0x42C, 0x2116, 0xAD, 0x44B,
    0x42B, 0x437, 0x417, 0x448, 0x428, 0x44D, 0x42D, 0x449, 0x429, 0x447, 0x427, 0xA7, 0x25A0,
    0xA0]

def ibm858 : CodePage := .extending <|
    [0xC7, 0xFC, 0xE9, 0xE2, 0xE4, 0xE0, 0xE5, 0xE7, 0xEA, 0xEB, 0xE8, 0xEF, 0xEE, 0xEC, 0xC4,
    0xC5, 0xC9, 0xE6, 0xC6, 0xF4, 0xF6, 0xF2, 0xFB, 0xF9, 0xFF, 0xD6, 0xDC, 0xF8, 0xA3, 0xD8,
    0xD7, 0x192, 0xE1, 0xED, 0xF3, 0xFA, 0xF1, 0xD1, 0xAA, 0xBA, 0xBF, 0xAE, 0xAC, 0xBD, 0xBC,
    0xA1, 0xAB, 0xBB, 0x2591, 0x2592, 0x2593, 0x2502, 0x2524, 0xC1, 0xC2, 0xC0, 0xA9, 0x2563,
    0x2551, 0x2557, 0x255D, 0xA2, 0xA5, 0x2510, 0x2514, 0x2534, 0x252C, 0x251C, 0x2500, 0x253C,
    0xE3, 0xC3, 0x255A, 0x2554, 0x2569, 0x2566, 0x2560, 0x2550, 0x256C, 0xA4, 0xF0, 0xD0, 0xCA,
    0xCB, 0xC8, 0x20AC, 0xCD, 0xCE, 0xCF, 0x2518, 0x250C, 0x2588, 0x2584, 0xA6, 0xCC, 0x2580,
    0xD3, 0xDF, 0xD4, 0xD2, 0xF5, 0xD5, 0xB5, 0xFE, 0xDE, 0xDA, 0xDB, 0xD9, 0xFD, 0xDD, 0xAF,
    0xB4, 0xAD, 0xB1, 0x2017, 0xBE, 0xB6, 0xA7, 0xF7, 0xB8, 0xB0, 0xA8, 0xB7, 0xB9, 0xB3, 0xB2,
    0x25A0, 0xA0]

def ibm860 : CodePage := .extending <|
    [0xC7, 0xFC, 0xE9, 0xE2, 0xE3, 0xE0, 0xC1, 0xE7, 0xEA, 0xCA, 0xE8, 0xCD, 0xD4, 0xEC, 0xC3,
    0xC2, 0xC9, 0xC0, 0xC8, 0xF4, 0xF5, 0xF2, 0xDA, 0xF9, 0xCC, 0xD5, 0xDC, 0xA2, 0xA3, 0xD9,
    0x20A7, 0xD3, 0xE1, 0xED, 0xF3, 0xFA, 0xF1, 0xD1, 0xAA, 0xBA, 0xBF, 0xD2, 0xAC, 0xBD, 0xBC,
    0xA1, 0xAB, 0xBB, 0x2591, 0x2592, 0x2593, 0x2502, 0x2524, 0x2561, 0x2562, 0x2556, 0x2555,
    0x2563, 0x2551, 0x2557, 0x255D, 0x255C, 0x255B, 0x2510, 0x2514, 0x2534, 0x252C, 0x251C,
    0x2500, 0x253C, 0x255E, 0x255F, 0x255A, 0x2554, 0x2569, 0x2566, 0x2560, 0x2550, 0x256C,
    0x2567, 0x2568, 0x2564, 0x2565, 0x2559, 0x2558, 0x2552, 0x2553, 0x256B, 0x256A, 0x2518,
    0x250C, 0x2588, 0x2584, 0x258C, 0x2590, 0x2580, 0x3B1, 0xDF, 0x393, 0x3C0, 0x3A3, 0x3C3,
    0xB5, 0x3C4, 0x3A6, 0x398, 0x3A9, 0x3B4, 0x221E, 0x3C6, 0x3B5, 0x2229, 0x2261, 0xB1, 0x2265,
    0x2264, 0x2320, 0x2321, 0xF7, 0x2248, 0xB0, 0x2219, 0xB7, 0x221A, 0x207F, 0xB2, 0x25A0, 0xA0]

def ibm862 : CodePage := .extending <|
    span 0x5D0 0x5EA ++ [0xA2, 0xA3, 0xA5, 0x20A7, 0x192, 0xE1, 0xED, 0xF3, 0xFA, 0xF1, 0xD1,
    0xAA, 0xBA, 0xBF, 0x2310, 0xAC, 0xBD, 0xBC, 0xA1, 0xAB, 0xBB, 0x2591, 0x2592, 0x2593, 0x2502,
    0x2524, 0x2561, 0x2562, 0x2556, 0x2555, 0x2563, 0x2551, 0x2557, 0x255D, 0x255C, 0x255B,
    0x2510, 0x2514, 0x2534, 0x252C, 0x251C, 0x2500, 0x253C, 0x255E, 0x255F, 0x255A, 0x2554,
    0x2569, 0x2566, 0x2560, 0x2550, 0x256C, 0x2567, 0x2568, 0x2564, 0x2565, 0x2559, 0x2558,
    0x2552, 0x2553, 0x256B, 0x256A, 0x2518, 0x250C, 0x2588, 0x2584, 0x258C, 0x2590, 0x2580,
    0x3B1, 0xDF, 0x393, 0x3C0, 0x3A3, 0x3C3, 0xB5, 0x3C4, 0x3A6, 0x398, 0x3A9, 0x3B4, 0x221E,
    0x3C6, 0x3B5, 0x2229, 0x2261, 0xB1, 0x2265, 0x2264, 0x2320, 0x2321, 0xF7, 0x2248, 0xB0,
    0x2219, 0xB7, 0x221A, 0x207F, 0xB2, 0x25A0, 0xA0]

def ibm863 : CodePage := .extending <|
    [0xC7, 0xFC, 0xE9, 0xE2, 0xC2, 0xE0, 0xB6, 0xE7, 0xEA, 0xEB, 0xE8, 0xEF, 0xEE, 0x2017, 0xC0,
    0xA7, 0xC9, 0xC8, 0xCA, 0xF4, 0xCB, 0xCF, 0xFB, 0xF9, 0xA4, 0xD4, 0xDC, 0xA2, 0xA3, 0xD9,
    0xDB, 0x192, 0xA6, 0xB4, 0xF3, 0xFA, 0xA8, 0xB8, 0xB3, 0xAF, 0xCE, 0x2310, 0xAC, 0xBD, 0xBC,
    0xBE, 0xAB, 0xBB, 0x2591, 0x2592, 0x2593, 0x2502, 0x2524, 0x2561, 0x2562, 0x2556, 0x2555,
    0x2563, 0x2551, 0x2557, 0x255D, 0x255C, 0x255B, 0x2510, 0x2514, 0x2534, 0x252C, 0x251C,
    0x2500, 0x253C, 0x255E, 0x255F, 0x255A, 0x2554, 0x2569, 0x2566, 0x2560, 0x2550, 0x256C,
    0x2567, 0x2568, 0x2564, 0x2565, 0x2559, 0x2558, 0x2552, 0x2553, 0x256B, 0x256A, 0x2518,
    0x250C, 0x2588, 0x2584, 0x258C, 0x2590, 0x2580, 0x3B1, 0xDF, 0x393, 0x3C0, 0x3A3, 0x3C3,
    0xB5, 0x3C4, 0x3A6, 0x398, 0x3A9, 0x3B4, 0x221E, 0x3C6, 0x3B5, 0x2229, 0x2261, 0xB1, 0x2265,
    0x2264, 0x2320, 0x2321, 0xF7, 0x2248, 0xB0, 0x2219, 0xB7, 0x221A, 0x207F, 0xB2, 0x25A0, 0xA0]

def ibm865 : CodePage := .extending <|
    [0xC7, 0xFC, 0xE9, 0xE2, 0xE4, 0xE0, 0xE5, 0xE7, 0xEA, 0xEB, 0xE8, 0xEF, 0xEE, 0xEC, 0xC4,
    0xC5, 0xC9, 0xE6, 0xC6, 0xF4, 0xF6, 0xF2, 0xFB, 0xF9, 0xFF, 0xD6, 0xDC, 0xF8, 0xA3, 0xD8,
    0x20A7, 0x192, 0xE1, 0xED, 0xF3, 0xFA, 0xF1, 0xD1, 0xAA, 0xBA, 0xBF, 0x2310, 0xAC, 0xBD,
    0xBC, 0xA1, 0xAB, 0xA4, 0x2591, 0x2592, 0x2593, 0x2502, 0x2524, 0x2561, 0x2562, 0x2556,
    0x2555, 0x2563, 0x2551, 0x2557, 0x255D, 0x255C, 0x255B, 0x2510, 0x2514, 0x2534, 0x252C,
    0x251C, 0x2500, 0x253C, 0x255E, 0x255F, 0x255A, 0x2554, 0x2569, 0x2566, 0x2560, 0x2550,
    0x256C, 0x2567, 0x2568, 0x2564, 0x2565, 0x2559, 0x2558, 0x2552, 0x2553, 0x256B, 0x256A,
    0x2518, 0x250C, 0x2588, 0x2584, 0x258C, 0x2590, 0x2580, 0x3B1, 0xDF, 0x393, 0x3C0, 0x3A3,
    0x3C3, 0xB5, 0x3C4, 0x3A6, 0x398, 0x3A9, 0x3B4, 0x221E, 0x3C6, 0x3B5, 0x2229, 0x2261, 0xB1,
    0x2265, 0x2264, 0x2320, 0x2321, 0xF7, 0x2248, 0xB0, 0x2219, 0xB7, 0x221A, 0x207F, 0xB2,
    0x25A0, 0xA0]

def ibm866 : CodePage := .extending <|
    span 0x410 0x43F ++ [0x2591, 0x2592, 0x2593, 0x2502, 0x2524, 0x2561, 0x2562, 0x2556, 0x2555,
    0x2563, 0x2551, 0x2557, 0x255D, 0x255C, 0x255B, 0x2510, 0x2514, 0x2534, 0x252C, 0x251C,
    0x2500, 0x253C, 0x255E, 0x255F, 0x255A, 0x2554, 0x2569, 0x2566, 0x2560, 0x2550, 0x256C,
    0x2567, 0x2568, 0x2564, 0x2565, 0x2559, 0x2558, 0x2552, 0x2553, 0x256B, 0x256A, 0x2518,
    0x250C, 0x2588, 0x2584, 0x258C, 0x2590, 0x2580] ++ span 0x440 0x44F ++ [0x401, 0x451, 0x404,
    0x454, 0x407, 0x457, 0x40E, 0x45E, 0xB0, 0x2219, 0xB7, 0x221A, 0x2116, 0xA4, 0x25A0, 0xA0]

def ibm1047 : CodePage where
  codes :=
    span 0x0 0x3 ++ [0x9C, 0x9, 0x86, 0x7F, 0x97, 0x8D, 0x8E] ++ span 0xB 0x13 ++ [0x9D, 0x85,
    0x8, 0x87, 0x18, 0x19, 0x92, 0x8F] ++ span 0x1C 0x1F ++ span 0x80 0x84 ++ [0xA, 0x17, 0x1B]
    ++ span 0x88 0x8C ++ [0x5, 0x6, 0x7, 0x90, 0x91, 0x16] ++ span 0x93 0x96 ++ [0x4]
    ++ span 0x98 0x9B ++ [0x14, 0x15, 0x9E, 0x1A, 0x20, 0xA0, 0xE2, 0xE4, 0xE0, 0xE1, 0xE3, 0xE5,
    0xE7, 0xF1, 0xA2, 0x2E, 0x3C, 0x28, 0x2B, 0x7C, 0x26, 0xE9, 0xEA, 0xEB, 0xE8, 0xED, 0xEE,
    0xEF, 0xEC, 0xDF, 0x21, 0x24, 0x2A, 0x29, 0x3B, 0x5E, 0x2D, 0x2F, 0xC2, 0xC4, 0xC0, 0xC1,
    0xC3, 0xC5, 0xC7, 0xD1, 0xA6, 0x2C, 0x25, 0x5F, 0x3E, 0x3F, 0xF8, 0xC9, 0xCA, 0xCB, 0xC8,
    0xCD, 0xCE, 0xCF, 0xCC, 0x60, 0x3A, 0x23, 0x40, 0x27, 0x3D, 0x22, 0xD8] ++ span 0x61 0x69
    ++ [0xAB, 0xBB, 0xF0, 0xFD, 0xFE, 0xB1, 0xB0] ++ span 0x6A 0x72 ++ [0xAA, 0xBA, 0xE6, 0xB8,
    0xC6, 0xA4, 0xB5, 0x7E] ++ span 0x73 0x7A ++ [0xA1, 0xBF, 0xD0, 0x5B, 0xDE, 0xAE, 0xAC, 0xA3,
    0xA5, 0xB7, 0xA9, 0xA7, 0xB6, 0xBC, 0xBD, 0xBE, 0xDD, 0xA8, 0xAF, 0x5D, 0xB4, 0xD7, 0x7B]
    ++ span 0x41 0x49 ++ [0xAD, 0xF4, 0xF6, 0xF2, 0xF3, 0xF5, 0x7D] ++ span 0x4A 0x52 ++ [0xB9,
    0xFB, 0xFC, 0xF9, 0xFA, 0xFF, 0x5C, 0xF7] ++ span 0x53 0x5A ++ [0xB2, 0xD4, 0xD6, 0xD2, 0xD3,
    0xD5] ++ span 0x30 0x39 ++ [0xB3, 0xDB, 0xDC, 0xD9, 0xDA, 0x9F]

def ibm1140 : CodePage where
  codes :=
    span 0x0 0x3 ++ [0x9C, 0x9, 0x86, 0x7F, 0x97, 0x8D, 0x8E] ++ span 0xB 0x13 ++ [0x9D, 0x85,
    0x8, 0x87, 0x18, 0x19, 0x92, 0x8F] ++ span 0x1C 0x1F ++ span 0x80 0x84 ++ [0xA, 0x17, 0x1B]
    ++ span 0x88 0x8C ++ [0x5, 0x6, 0x7, 0x90, 0x91, 0x16] ++ span 0x93 0x96 ++ [0x4]
    ++ span 0x98 0x9B ++ [0x14, 0x15, 0x9E, 0x1A, 0x20, 0xA0, 0xE2, 0xE4, 0xE0, 0xE1, 0xE3, 0xE5,
    0xE7, 0xF1, 0xA2, 0x2E, 0x3C, 0x28, 0x2B, 0x7C, 0x26, 0xE9, 0xEA, 0xEB, 0xE8, 0xED, 0xEE,
    0xEF, 0xEC, 0xDF, 0x21, 0x24, 0x2A, 0x29, 0x3B, 0xAC, 0x2D, 0x2F, 0xC2, 0xC4, 0xC0, 0xC1,
    0xC3, 0xC5, 0xC7, 0xD1, 0xA6, 0x2C, 0x25, 0x5F, 0x3E, 0x3F, 0xF8, 0xC9, 0xCA, 0xCB, 0xC8,
    0xCD, 0xCE, 0xCF, 0xCC, 0x60, 0x3A, 0x23, 0x40, 0x27, 0x3D, 0x22, 0xD8] ++ span 0x61 0x69
    ++ [0xAB, 0xBB, 0xF0, 0xFD, 0xFE, 0xB1, 0xB0] ++ span 0x6A 0x72 ++ [0xAA, 0xBA, 0xE6, 0xB8,
    0xC6, 0x20AC, 0xB5, 0x7E] ++ span 0x73 0x7A ++ [0xA1, 0xBF, 0xD0, 0xDD, 0xDE, 0xAE, 0x5E,
    0xA3, 0xA5, 0xB7, 0xA9, 0xA7, 0xB6, 0xBC, 0xBD, 0xBE, 0x5B, 0x5D, 0xAF, 0xA8, 0xB4, 0xD7,
    0x7B] ++ span 0x41 0x49 ++ [0xAD, 0xF4, 0xF6, 0xF2, 0xF3, 0xF5, 0x7D] ++ span 0x4A 0x52
    ++ [0xB9, 0xFB, 0xFC, 0xF9, 0xFA, 0xFF, 0x5C, 0xF7] ++ span 0x53 0x5A ++ [0xB2, 0xD4, 0xD6,
    0xD2, 0xD3, 0xD5] ++ span 0x30 0x39 ++ [0xB3, 0xDB, 0xDC, 0xD9, 0xDA, 0x9F]

def iso8859_1 : CodePage := .extending <|
    span 0x80 0xFF

def iso8859_2 : CodePage := .extending <|
    gap 32 ++ [0xA0, 0x104, 0x2D8, 0x141, 0xA4, 0x13D, 0x15A, 0xA7, 0xA8, 0x160, 0x15E, 0x164,
    0x179, 0xAD, 0x17D, 0x17B, 0xB0, 0x105, 0x2DB, 0x142, 0xB4, 0x13E, 0x15B, 0x2C7, 0xB8, 0x161,
    0x15F, 0x165, 0x17A, 0x2DD, 0x17E, 0x17C, 0x154, 0xC1, 0xC2, 0x102, 0xC4, 0x139, 0x106, 0xC7,
    0x10C, 0xC9, 0x118, 0xCB, 0x11A, 0xCD, 0xCE, 0x10E, 0x110, 0x143, 0x147, 0xD3, 0xD4, 0x150,
    0xD6, 0xD7, 0x158, 0x16E, 0xDA, 0x170, 0xDC, 0xDD, 0x162, 0xDF, 0x155, 0xE1, 0xE2, 0x103,
    0xE4, 0x13A, 0x107, 0xE7, 0x10D, 0xE9, 0x119, 0xEB, 0x11B, 0xED, 0xEE, 0x10F, 0x111, 0x144,
    0x148, 0xF3, 0xF4, 0x151, 0xF6, 0xF7, 0x159, 0x16F, 0xFA, 0x171, 0xFC, 0xFD, 0x163, 0x2D9]

def iso8859_3 : CodePage := .extending <|
    gap 32 ++ [0xA0, 0x126, 0x2D8, 0xA3, 0xA4, 0xFFFD, 0x124, 0xA7, 0xA8, 0x130, 0x15E, 0x11E,
    0x134, 0xAD, 0xFFFD, 0x17B, 0xB0, 0x127] ++ span 0xB2 0xB5 ++ [0x125, 0xB7, 0xB8, 0x131,
    0x15F, 0x11F, 0x135, 0xBD, 0xFFFD, 0x17C, 0xC0, 0xC1, 0xC2, 0xFFFD, 0xC4, 0x10A, 0x108]
    ++ span 0xC7 0xCF ++ [0xFFFD] ++ span 0xD1 0xD4 ++ [0x120, 0xD6, 0xD7, 0x11C]
    ++ span 0xD9 0xDC ++ [0x16C, 0x15C] ++ span 0xDF 0xE2 ++ [0xFFFD, 0xE4, 0x10B, 0x109]
    ++ span 0xE7 0xEF ++ [0xFFFD] ++ span 0xF1 0xF4 ++ [0x121, 0xF6, 0xF7, 0x11D]
    ++ span 0xF9 0xFC ++ [0x16D, 0x15D, 0x2D9]

def iso8859_4 : CodePage := .extending <|
    gap 32 ++ [0xA0, 0x104, 0x138, 0x156, 0xA4, 0x128, 0x13B, 0xA7, 0xA8, 0x160, 0x112, 0x122,
    0x166, 0xAD, 0x17D, 0xAF, 0xB0, 0x105, 0x2DB, 0x157, 0xB4, 0x129, 0x13C, 0x2C7, 0xB8, 0x161,
    0x113, 0x123, 0x167, 0x14A, 0x17E, 0x14B, 0x100] ++ span 0xC1 0xC6 ++ [0x12E, 0x10C, 0xC9,
    0x118, 0xCB, 0x116, 0xCD, 0xCE, 0x12A, 0x110, 0x145, 0x14C, 0x136] ++ span 0xD4 0xD8
    ++ [0x172, 0xDA, 0xDB, 0xDC, 0x168, 0x16A, 0xDF, 0x101] ++ span 0xE1 0xE6 ++ [0x12F, 0x10D,
    0xE9, 0x119, 0xEB, 0x117, 0xED, 0xEE, 0x12B, 0x111, 0x146, 0x14D, 0x137] ++ span 0xF4 0xF8
    ++ [0x173, 0xFA, 0xFB, 0xFC, 0x169, 0x16B, 0x2D9]

def iso8859_5 : CodePage := .extending <|
    gap 32 ++ [0xA0] ++ span 0x401 0x40C ++ [0xAD] ++ span 0x40E 0x44F ++ [0x2116]
    ++ span 0x451 0x45C ++ [0xA7, 0x45E, 0x45F]

def iso8859_6 : CodePage := .extending <|
    gap 32 ++ [0xA0] ++ gap 3 ++ [0xA4] ++ gap 7 ++ [0x60C, 0xAD] ++ gap 13 ++ [0x61B] ++ gap 3
    ++ [0x61F, 0xFFFD] ++ span 0x621 0x63A ++ gap 5 ++ span 0x640 0x652 ++ gap 13

def iso8859_7 : CodePage := .extending <|
    gap 32 ++ [0xA0, 0x2018, 0x2019, 0xA3, 0x20AC, 0x20AF] ++ span 0xA6 0xA9 ++ [0x37A, 0xAB,
    0xAC, 0xAD, 0xFFFD, 0x2015] ++ span 0xB0 0xB3 ++ [0x384, 0x385, 0x386, 0xB7, 0x388, 0x389,
    0x38A, 0xBB, 0x38C, 0xBD] ++ span 0x38E 0x3A1 ++ [0xFFFD] ++ span 0x3A3 0x3CE ++ [0xFFFD]

def iso8859_8 : CodePage := .extending <|
    gap 32 ++ [0xA0, 0xFFFD] ++ span 0xA2 0xA9 ++ [0xD7] ++ span 0xAB 0xB9 ++ [0xF7]
    ++ span 0xBB 0xBE ++ gap 32 ++ [0x2017] ++ span 0x5D0 0x5EA ++ [0xFFFD, 0xFFFD, 0x200E,
    0x200F, 0xFFFD]

def iso8859_9 : CodePage := .extending <|
    span 0x80 0xCF ++ [0x11E] ++ span 0xD1 0xDC ++ [0x130, 0x15E] ++ span 0xDF 0xEF ++ [0x11F]
    ++ span 0xF1 0xFC ++ [0x131, 0x15F, 0xFF]

def iso8859_10 : CodePage := .extending <|
    gap 32 ++ [0xA0, 0x104, 0x112, 0x122, 0x12A, 0x128, 0x136, 0xA7, 0x13B, 0x110, 0x160, 0x166,
    0x17D, 0xAD, 0x16A, 0x14A, 0xB0, 0x105, 0x113, 0x123, 0x12B, 0x129, 0x137, 0xB7, 0x13C,
    0x111, 0x161, 0x167, 0x17E, 0x2015, 0x16B, 0x14B, 0x100] ++ span 0xC1 0xC6 ++ [0x12E, 0x10C,
    0xC9, 0x118, 0xCB, 0x116] ++ span 0xCD 0xD0 ++ [0x145, 0x14C] ++ span 0xD3 0xD6 ++ [0x168,
    0xD8, 0x172] ++ span 0xDA 0xDF ++ [0x101] ++ span 0xE1 0xE6 ++ [0x12F, 0x10D, 0xE9, 0x119,
    0xEB, 0x117] ++ span 0xED 0xF0 ++ [0x146, 0x14D] ++ span 0xF3 0xF6 ++ [0x169, 0xF8, 0x173]
    ++ span 0xFA 0xFE ++ [0x138]

def iso8859_13 : CodePage := .extending <|
    gap 32 ++ [0xA0, 0x201D, 0xA2, 0xA3, 0xA4, 0x201E, 0xA6, 0xA7, 0xD8, 0xA9, 0x156]
    ++ span 0xAB 0xAE ++ [0xC6] ++ span 0xB0 0xB3 ++ [0x201C, 0xB5, 0xB6, 0xB7, 0xF8, 0xB9,
    0x157] ++ span 0xBB 0xBE ++ [0xE6, 0x104, 0x12E, 0x100, 0x106, 0xC4, 0xC5, 0x118, 0x112,
    0x10C, 0xC9, 0x179, 0x116, 0x122, 0x136, 0x12A, 0x13B, 0x160, 0x143, 0x145, 0xD3, 0x14C,
    0xD5, 0xD6, 0xD7, 0x172, 0x141, 0x15A, 0x16A, 0xDC, 0x17B, 0x17D, 0xDF, 0x105, 0x12F, 0x101,
    0x107, 0xE4, 0xE5, 0x119, 0x113, 0x10D, 0xE9, 0x17A, 0x117, 0x123, 0x137, 0x12B, 0x13C,
    0x161, 0x144, 0x146, 0xF3, 0x14D, 0xF5, 0xF6, 0xF7, 0x173, 0x142, 0x15B, 0x16B, 0xFC, 0x17C,
    0x17E, 0x2019]

def iso8859_14 : CodePage := .extending <|
    gap 32 ++ [0xA0, 0x1E02, 0x1E03, 0xA3, 0x10A, 0x10B, 0x1E0A, 0xA7, 0x1E80, 0xA9, 0x1E82,
    0x1E0B, 0x1EF2, 0xAD, 0xAE, 0x178, 0x1E1E, 0x1E1F, 0x120, 0x121, 0x1E40, 0x1E41, 0xB6,
    0x1E56, 0x1E81, 0x1E57, 0x1E83, 0x1E60, 0x1EF3, 0x1E84, 0x1E85, 0x1E61] ++ span 0xC0 0xCF
    ++ [0x174] ++ span 0xD1 0xD6 ++ [0x1E6A] ++ span 0xD8 0xDD ++ [0x176] ++ span 0xDF 0xEF
    ++ [0x175] ++ span 0xF1 0xF6 ++ [0x1E6B] ++ span 0xF8 0xFD ++ [0x177, 0xFF]

def iso8859_15 : CodePage := .extending <|
    gap 32 ++ span 0xA0 0xA3 ++ [0x20AC, 0xA5, 0x160, 0xA7, 0x161] ++ span 0xA9 0xB3 ++ [0x17D,
    0xB5, 0xB6, 0xB7, 0x17E, 0xB9, 0xBA, 0xBB, 0x152, 0x153, 0x178] ++ span 0xBF 0xFF

def iso8859_16 : CodePage := .extending <|
    gap 32 ++ [0xA0, 0x104, 0x105, 0x141, 0x20AC, 0x201E, 0x160, 0xA7, 0x161, 0xA9, 0x218, 0xAB,
    0x179, 0xAD, 0x17A, 0x17B, 0xB0, 0xB1, 0x10C, 0x142, 0x17D, 0x201D, 0xB6, 0xB7, 0x17E, 0x10D,
    0x219, 0xBB, 0x152, 0x153, 0x178, 0x17C, 0xC0, 0xC1, 0xC2, 0x102, 0xC4, 0x106]
    ++ span 0xC6 0xCF ++ [0x110, 0x143, 0xD2, 0xD3, 0xD4, 0x150, 0xD6, 0x15A, 0x170]
    ++ span 0xD9 0xDC ++ [0x118, 0x21A] ++ span 0xDF 0xE2 ++ [0x103, 0xE4, 0x107]
    ++ span 0xE6 0xEF ++ [0x111, 0x144, 0xF2, 0xF3, 0xF4, 0x151, 0xF6, 0x15B, 0x171]
    ++ span 0xF9 0xFC ++ [0x119, 0x21B, 0xFF]

def koi8r : CodePage := .extending <|
    [0x2500, 0x2502, 0x250C, 0x2510, 0x2514, 0x2518, 0x251C, 0x2524, 0x252C, 0x2534, 0x253C,
    0x2580, 0x2584, 0x2588, 0x258C] ++ span 0x2590 0x2593 ++ [0x2320, 0x25A0, 0x2219, 0x221A,
    0x2248, 0x2264, 0x2265, 0xA0, 0x2321, 0xB0, 0xB2, 0xB7, 0xF7, 0x2550, 0x2551, 0x2552, 0x451]
    ++ span 0x2553 0x2561 ++ [0x401] ++ span 0x2562 0x256C ++ [0xA9, 0x44E, 0x430, 0x431, 0x446,
    0x434, 0x435, 0x444, 0x433, 0x445] ++ span 0x438 0x43F ++ [0x44F] ++ span 0x440 0x443
    ++ [0x436, 0x432, 0x44C, 0x44B, 0x437, 0x448, 0x44D, 0x449, 0x447, 0x44A, 0x42E, 0x410,
    0x411, 0x426, 0x414, 0x415, 0x424, 0x413, 0x425] ++ span 0x418 0x41F ++ [0x42F]
    ++ span 0x420 0x423 ++ [0x416, 0x412, 0x42C, 0x42B, 0x417, 0x428, 0x42D, 0x429, 0x427, 0x42A]

def koi8u : CodePage := .extending <|
    [0x2500, 0x2502, 0x250C, 0x2510, 0x2514, 0x2518, 0x251C, 0x2524, 0x252C, 0x2534, 0x253C,
    0x2580, 0x2584, 0x2588, 0x258C] ++ span 0x2590 0x2593 ++ [0x2320, 0x25A0, 0x2219, 0x221A,
    0x2248, 0x2264, 0x2265, 0xA0, 0x2321, 0xB0, 0xB2, 0xB7, 0xF7, 0x2550, 0x2551, 0x2552, 0x451,
    0x454, 0x2554, 0x456, 0x457] ++ span 0x2557 0x255B ++ [0x491, 0x45E] ++ span 0x255E 0x2561
    ++ [0x401, 0x404, 0x2563, 0x406, 0x407] ++ span 0x2566 0x256A ++ [0x490, 0x40E, 0xA9, 0x44E,
    0x430, 0x431, 0x446, 0x434, 0x435, 0x444, 0x433, 0x445] ++ span 0x438 0x43F ++ [0x44F]
    ++ span 0x440 0x443 ++ [0x436, 0x432, 0x44C, 0x44B, 0x437, 0x448, 0x44D, 0x449, 0x447, 0x44A,
    0x42E, 0x410, 0x411, 0x426, 0x414, 0x415, 0x424, 0x413, 0x425] ++ span 0x418 0x41F ++ [0x42F]
    ++ span 0x420 0x423 ++ [0x416, 0x412, 0x42C, 0x42B, 0x417, 0x428, 0x42D, 0x429, 0x427, 0x42A]

def macintosh : CodePage := .extending <|
    [0xC4, 0xC5, 0xC7, 0xC9, 0xD1, 0xD6, 0xDC, 0xE1, 0xE0, 0xE2, 0xE4, 0xE3, 0xE5, 0xE7, 0xE9,
    0xE8, 0xEA, 0xEB, 0xED, 0xEC, 0xEE, 0xEF, 0xF1, 0xF3, 0xF2, 0xF4, 0xF6, 0xF5, 0xFA, 0xF9,
    0xFB, 0xFC, 0x2020, 0xB0, 0xA2, 0xA3, 0xA7, 0x2022, 0xB6, 0xDF, 0xAE, 0xA9, 0x2122, 0xB4,
    0xA8, 0x2260, 0xC6, 0xD8, 0x221E, 0xB1, 0x2264, 0x2265, 0xA5, 0xB5, 0x2202, 0x2211, 0x220F,
    0x3C0, 0x222B, 0xAA, 0xBA, 0x3A9, 0xE6, 0xF8, 0xBF, 0xA1, 0xAC, 0x221A, 0x192, 0x2248,
    0x2206, 0xAB, 0xBB, 0x2026, 0xA0, 0xC0, 0xC3, 0xD5, 0x152, 0x153, 0x2013, 0x2014, 0x201C,
    0x201D, 0x2018, 0x2019, 0xF7, 0x25CA, 0xFF, 0x178, 0x2044, 0x20AC, 0x2039, 0x203A, 0xFB01,
    0xFB02, 0x2021, 0xB7, 0x201A, 0x201E, 0x2030, 0xC2, 0xCA, 0xC1, 0xCB, 0xC8, 0xCD, 0xCE, 0xCF,
    0xCC, 0xD3, 0xD4, 0xF8FF, 0xD2, 0xDA, 0xDB, 0xD9, 0x131, 0x2C6, 0x2DC, 0xAF, 0x2D8, 0x2D9,
    0x2DA, 0xB8, 0x2DD, 0x2DB, 0x2C7]

def windows874 : CodePage := .extending <|
    [0x20AC] ++ gap 4 ++ [0x2026] ++ gap 11 ++ [0x2018, 0x2019, 0x201C, 0x201D, 0x2022, 0x2013,
    0x2014] ++ gap 8 ++ [0xA0] ++ span 0xE01 0xE3A ++ gap 4 ++ span 0xE3F 0xE5B ++ gap 4

def windows1250 : CodePage := .extending <|
    [0x20AC, 0xFFFD, 0x201A, 0xFFFD, 0x201E, 0x2026, 0x2020, 0x2021, 0xFFFD, 0x2030, 0x160,
    0x2039, 0x15A, 0x164, 0x17D, 0x179, 0xFFFD, 0x2018, 0x2019, 0x201C, 0x201D, 0x2022, 0x2013,
    0x2014, 0xFFFD, 0x2122, 0x161, 0x203A, 0x15B, 0x165, 0x17E, 0x17A, 0xA0, 0x2C7, 0x2D8, 0x141,
    0xA4, 0x104] ++ span 0xA6 0xA9 ++ [0x15E] ++ span 0xAB 0xAE ++ [0x17B, 0xB0, 0xB1, 0x2DB,
    0x142] ++ span 0xB4 0xB8 ++ [0x105, 0x15F, 0xBB, 0x13D, 0x2DD, 0x13E, 0x17C, 0x154, 0xC1,
    0xC2, 0x102, 0xC4, 0x139, 0x106, 0xC7, 0x10C, 0xC9, 0x118, 0xCB, 0x11A, 0xCD, 0xCE, 0x10E,
    0x110, 0x143, 0x147, 0xD3, 0xD4, 0x150, 0xD6, 0xD7, 0x158, 0x16E, 0xDA, 0x170, 0xDC, 0xDD,
    0x162, 0xDF, 0x155, 0xE1, 0xE2, 0x103, 0xE4, 0x13A, 0x107, 0xE7, 0x10D, 0xE9, 0x119, 0xEB,
    0x11B, 0xED, 0xEE, 0x10F, 0x111, 0x144, 0x148, 0xF3, 0xF4, 0x151, 0xF6, 0xF7, 0x159, 0x16F,
    0xFA, 0x171, 0xFC, 0xFD, 0x163, 0x2D9]

def windows1251 : CodePage := .extending <|
    [0x402, 0x403, 0x201A, 0x453, 0x201E, 0x2026, 0x2020, 0x2021, 0x20AC, 0x2030, 0x409, 0x2039,
    0x40A, 0x40C, 0x40B, 0x40F, 0x452, 0x2018, 0x2019, 0x201C, 0x201D, 0x2022, 0x2013, 0x2014,
    0xFFFD, 0x2122, 0x459, 0x203A, 0x45A, 0x45C, 0x45B, 0x45F, 0xA0, 0x40E, 0x45E, 0x408, 0xA4,
    0x490, 0xA6, 0xA7, 0x401, 0xA9, 0x404] ++ span 0xAB 0xAE ++ [0x407, 0xB0, 0xB1, 0x406, 0x456,
    0x491, 0xB5, 0xB6, 0xB7, 0x451, 0x2116, 0x454, 0xBB, 0x458, 0x405, 0x455, 0x457]
    ++ span 0x410 0x44F

def windows1252 : CodePage := .extending <|
    [0x20AC, 0xFFFD, 0x201A, 0x192, 0x201E, 0x2026, 0x2020, 0x2021, 0x2C6, 0x2030, 0x160, 0x2039,
    0x152, 0xFFFD, 0x17D, 0xFFFD, 0xFFFD, 0x2018, 0x2019, 0x201C, 0x201D, 0x2022, 0x2013, 0x2014,
    0x2DC, 0x2122, 0x161, 0x203A, 0x153, 0xFFFD, 0x17E, 0x178] ++ span 0xA0 0xFF

def windows1253 : CodePage := .extending <|
    [0x20AC, 0xFFFD, 0x201A, 0x192, 0x201E, 0x2026, 0x2020, 0x2021, 0xFFFD, 0x2030, 0xFFFD,
    0x2039] ++ gap 5 ++ [0x2018, 0x2019, 0x201C, 0x201D, 0x2022, 0x2013, 0x2014, 0xFFFD, 0x2122,
    0xFFFD, 0x203A] ++ gap 4 ++ [0xA0, 0x385, 0x386] ++ span 0xA3 0xA9 ++ [0xFFFD]
    ++ span 0xAB 0xAE ++ [0x2015] ++ span 0xB0 0xB3 ++ [0x384, 0xB5, 0xB6, 0xB7, 0x388, 0x389,
    0x38A, 0xBB, 0x38C, 0xBD] ++ span 0x38E 0x3A1 ++ [0xFFFD] ++ span 0x3A3 0x3CE ++ [0xFFFD]

def windows1254 : CodePage := .extending <|
    [0x20AC, 0xFFFD, 0x201A, 0x192, 0x201E, 0x2026, 0x2020, 0x2021, 0x2C6, 0x2030, 0x160, 0x2039,
    0x152] ++ gap 4 ++ [0x2018, 0x2019, 0x201C, 0x201D, 0x2022, 0x2013, 0x2014, 0x2DC, 0x2122,
    0x161, 0x203A, 0x153, 0xFFFD, 0xFFFD, 0x178] ++ span 0xA0 0xCF ++ [0x11E] ++ span 0xD1 0xDC
    ++ [0x130, 0x15E] ++ span 0xDF 0xEF ++ [0x11F] ++ span 0xF1 0xFC ++ [0x131, 0x15F, 0xFF]

def windows1255 : CodePage := .extending <|
    [0x20AC, 0xFFFD, 0x201A, 0x192, 0x201E, 0x2026, 0x2020, 0x2021, 0x2C6, 0x2030, 0xFFFD,
    0x2039] ++ gap 5 ++ [0x2018, 0x2019, 0x201C, 0x201D, 0x2022, 0x2013, 0x2014, 0x2DC, 0x2122,
    0xFFFD, 0x203A] ++ gap 4 ++ span 0xA0 0xA3 ++ [0x20AA] ++ span 0xA5 0xA9 ++ [0xD7]
    ++ span 0xAB 0xB9 ++ [0xF7] ++ span 0xBB 0xBF ++ span 0x5B0 0x5C3 ++ span 0x5F0 0x5F4
    ++ gap 7 ++ span 0x5D0 0x5EA ++ [0xFFFD, 0xFFFD, 0x200E, 0x200F, 0xFFFD]

def windows1256 : CodePage := .extending <|
    [0x20AC, 0x67E, 0x201A, 0x192, 0x201E, 0x2026, 0x2020, 0x2021, 0x2C6, 0x2030, 0x679, 0x2039,
    0x152, 0x686, 0x698, 0x688, 0x6AF, 0x2018, 0x2019, 0x201C, 0x201D, 0x2022, 0x2013, 0x2014,
    0x6A9, 0x2122, 0x691, 0x203A, 0x153, 0x200C, 0x200D, 0x6BA, 0xA0, 0x60C] ++ span 0xA2 0xA9
    ++ [0x6BE] ++ span 0xAB 0xB9 ++ [0x61B] ++ span 0xBB 0xBE ++ [0x61F, 0x6C1]
    ++ span 0x621 0x636 ++ [0xD7] ++ span 0x637 0x63A ++ span 0x640 0x643 ++ [0xE0, 0x644, 0xE2]
    ++ span 0x645 0x648 ++ span 0xE7 0xEB ++ [0x649, 0x64A, 0xEE, 0xEF] ++ span 0x64B 0x64E
    ++ [0xF4, 0x64F, 0x650, 0xF7, 0x651, 0xF9, 0x652, 0xFB, 0xFC, 0x200E, 0x200F, 0x6D2]

def windows1257 : CodePage := .extending <|
    [0x20AC, 0xFFFD, 0x201A, 0xFFFD, 0x201E, 0x2026, 0x2020, 0x2021, 0xFFFD, 0x2030, 0xFFFD,
    0x2039, 0xFFFD, 0xA8, 0x2C7, 0xB8, 0xFFFD, 0x2018, 0x2019, 0x201C, 0x201D, 0x2022, 0x2013,
    0x2014, 0xFFFD, 0x2122, 0xFFFD, 0x203A, 0xFFFD, 0xAF, 0x2DB, 0xFFFD, 0xA0, 0xFFFD, 0xA2,
    0xA3, 0xA4, 0xFFFD, 0xA6, 0xA7, 0xD8, 0xA9, 0x156] ++ span 0xAB 0xAE ++ [0xC6]
    ++ span 0xB0 0xB7 ++ [0xF8, 0xB9, 0x157] ++ span 0xBB 0xBE ++ [0xE6, 0x104, 0x12E, 0x100,
    0x106, 0xC4, 0xC5, 0x118, 0x112, 0x10C, 0xC9, 0x179, 0x116, 0x122, 0x136, 0x12A, 0x13B,
    0x160, 0x143, 0x145, 0xD3, 0x14C, 0xD5, 0xD6, 0xD7, 0x172, 0x141, 0x15A, 0x16A, 0xDC, 0x17B,
    0x17D, 0xDF, 0x105, 0x12F, 0x101, 0x107, 0xE4, 0xE5, 0x119, 0x113, 0x10D, 0xE9, 0x17A, 0x117,
    0x123, 0x137, 0x12B, 0x13C, 0x161, 0x144, 0x146, 0xF3, 0x14D, 0xF5, 0xF6, 0xF7, 0x173, 0x142,
    0x15B, 0x16B, 0xFC, 0x17C, 0x17E, 0x2D9]

def windows1258 : CodePage := .extending <|
    [0x20AC, 0xFFFD, 0x201A, 0x192, 0x201E, 0x2026, 0x2020, 0x2021, 0x2C6, 0x2030, 0xFFFD,
    0x2039, 0x152] ++ gap 4 ++ [0x2018, 0x2019, 0x201C, 0x201D, 0x2022, 0x2013, 0x2014, 0x2DC,
    0x2122, 0xFFFD, 0x203A, 0x153, 0xFFFD, 0xFFFD, 0x178] ++ span 0xA0 0xC2 ++ [0x102]
    ++ span 0xC4 0xCB ++ [0x300, 0xCD, 0xCE, 0xCF, 0x110, 0xD1, 0x309, 0xD3, 0xD4, 0x1A0]
    ++ span 0xD6 0xDC ++ [0x1AF, 0x303] ++ span 0xDF 0xE2 ++ [0x103] ++ span 0xE4 0xEB ++ [0x301,
    0xED, 0xEE, 0xEF, 0x111, 0xF1, 0x323, 0xF3, 0xF4, 0x1A1] ++ span 0xF6 0xFC ++ [0x1B0, 0x20AB,
    0xFF]

end Restyler.CodePage
