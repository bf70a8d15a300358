import Mathlib.Algebra.Group.Nat.Defs
import Pgzf.Error

/-! # Constants of the format (`constants.rs`) -/

namespace Pgzf

def gzipId1 : UInt8 := 0x1f
def gzipId2 : UInt8 := 0x8b
def gzipCmDeflate : UInt8 := 0x08
def gzipFlgFextra : UInt8 := 0x04
def gzipOsUnix : UInt8 := 0x03

/-- The `XFL` value that marks a member as PGZF. -/
def pgzfXflMarker : UInt8 := 0xAA

def gzipFixedHeaderSize : Nat := 10
def begHeaderSize : Nat := 32
def datHeaderSize : Nat := 20
def idxHeaderBaseSize : Nat := 24
def pgzfTailSize : Nat := 8

/-- Where the `ZC` and `GC` values stand in a header. -/
def zcValueOffset : Nat := 16
def gcValueOffset : Nat := 24

def tagZc : Bytes := [0x5A, 0x43]
def tagGc : Bytes := [0x47, 0x43]
def tagIx : Bytes := [0x49, 0x58]

def defaultBlockSize : Nat := 2 ^ 20
def defaultGroupBlocks : Nat := 8000
def defaultCompressionLevel : Nat := 6

end Pgzf
