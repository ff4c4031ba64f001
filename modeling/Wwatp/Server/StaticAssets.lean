import Wwatp.Cxx.Blocks
import Wwatp.Transport.Facade
import Wwatp.Transport.StreamTables

/-! Files that a server hands out as they are. A file is read in chunks, and the server answers a request with a route
of a backend or with the chunks of a file. -/
namespace Wwatp

open Cxx

/-- The room for data behind the header of a payload chunk. -/
def chunkPayloadSize : ℕ := chunkSize - 6

/-- A chunk of a file, under `SIGNAL_OTHER_CHUNK`. -/
def fileChunk (data : List UInt8) : SharedSpan := .ofSignal (.payload ⟨0, 0x00, .ofNat data.length⟩) data

/-- `HTTP3Server`: its routes and static assets by url. -/
structure HTTP3Server (Route : Type) where
  servers : Str → Option Route := fun _ => none
  staticAssets : Str → Option (List SharedSpan) := fun _ => none

namespace HTTP3Server

variable {Route : Type}

def isChunkStream (url : Str) : Bool := decide (str "wwatp/" <:+: url)

/-- `addBackendRoute`. A url keeps the route it has. -/
def addBackendRoute (server : HTTP3Server Route) (url : Str) (route : Route) : HTTP3Server Route :=
  { server with servers := Function.update server.servers url ((server.servers url).or (some route)) }

def staticAsset (server : HTTP3Server Route) (url : Str) : List SharedSpan := (server.staticAssets url).getD []

end HTTP3Server

/-- The bytes that `lock_outgoing_chunks` hands over for a chunk. The header of an `OTHER_CHUNK` stays behind. -/
def SharedSpan.lockedBytes (chunk : SharedSpan) : Outcome (List UInt8) := do
  let bytes ← chunk.useChunk
  if chunk.signalType = 2 then
    let signal ← chunk.getSignalSignal
    return if signal = 0x00 then bytes.drop 6 else bytes
  else return bytes

section FileChunk

variable {data : List UInt8} (hData : data.length ≤ chunkPayloadSize)

include hData

theorem fileChunk_eq : fileChunk data = ⟨[.ofHeader (.payload ⟨0, 0x00, .ofNat data.length⟩) data], 2⟩ := by
  rw [fileChunk, SharedSpan.ofSignal_of_le (by simpa [chunkPayloadSize, ChunkHeader.size] using hData)]
  rfl

theorem size_fileChunk : (fileChunk data).size = data.length := by
  rw [fileChunk_eq hData, SharedSpan.size, List.map_singleton, List.sum_singleton, ← Chunk.body_length, Chunk.body_ofHeader,
    List.take_of_length_le (by simpa [chunkPayloadSize, ChunkHeader.size] using hData)]

theorem sentSize_fileChunk : (fileChunk data).sentSize = .ok (data.length + 6) := by
  have hSignal : (fileChunk data).getSignalSize = .ok 6 := by
    rw [fileChunk_eq hData]
    rfl
  rw [SharedSpan.sentSize, hSignal, Outcome.ok_bind, size_fileChunk hData, Outcome.pure_eq_ok]

theorem lockedBytes_fileChunk (hPos : data ≠ []) : (fileChunk data).lockedBytes = .ok data := by
  have hLength : 0 < data.length := List.length_pos_of_ne_nil hPos
  have hSmall : data.length < 2 ^ 16 := by
    rw [chunkPayloadSize, chunkSize] at hData
    omega
  let chunk : WireChunk := ⟨.payload ⟨0, 0x00, .ofNat data.length⟩, data, by
    refine ⟨?_, hLength, by simpa [chunkPayloadSize, chunkSize] using hData⟩
    simp [UInt16.toNat_ofNat_of_lt' hSmall]⟩
  have hUse : (fileChunk data).useChunk = .ok chunk.bytes := chunk.useChunk_span
  have hType : (fileChunk data).signalType = 2 := rfl
  have hSignal : (fileChunk data).getSignalSignal = .ok 0x00 := SharedSpan.getSignalSignal_ofSignal _ _
  rw [SharedSpan.lockedBytes, hUse, Outcome.ok_bind, if_pos hType, hSignal, Outcome.ok_bind, if_pos rfl, WireChunk.bytes]
  exact congrArg Except.ok (List.drop_left' (ChunkHeader.toBytes_length _))

end FileChunk

namespace HTTP3Server

variable {Route : Type} {server : HTTP3Server Route} {req : Request} {asset : List SharedSpan}

end HTTP3Server
end Wwatp
