import Parsip.Protocol.Theorems.Message
import Parsip.Resource.Theorems.Paths

-- Where a download ends up.

namespace Parsip

open PosixPath

variable {info : ResourceInfo}

-- Nothing between the wire and the renaming looks at the name, so the file stays directly inside
-- every downloads directory exactly when the name is relative and leads to a single component.
theorem finalPath_directlyInside_iff :
    (∀ m : DownloadManager, DirectlyInside m.downloadsDir (m.finalPath info)) ↔
      isAbsolute info.name.toList = false ∧
        ∃ name, resolve info.name.toList = Place.here.child name := by
  rw [← directlyInside_join_iff]
  exact ⟨fun h dir => h (.new dir), fun h m => h m.downloadsDir⟩

-- A resource whose name climbs.
def climbing : ResourceInfo where
  id := ⟨.replicate 32 0⟩
  name := "../x"
  size := 0

theorem climbing_escapes :
    Message.tryFrom (Message.toFrame (.resourceList 1 [climbing])) = .ok (.resourceList 1 [climbing]) ∧
      ¬DirectlyInside "/downloads".toList
        ((DownloadManager.new "/downloads".toList).finalPath climbing) := by
  constructor
  case left =>
    refine Message.tryFrom_toFrame_eq <| Message.Encodable.of_fits ?_
    decide
  case right =>
    intro ⟨name, h⟩
    have hl := congrArg (·.names.length) h
    have hf : (resolve ((DownloadManager.new "/downloads".toList).finalPath climbing)).names.length = 1 := by decide
    have hd : (resolve "/downloads".toList).names.length = 1 := by decide
    simp only [hf, Place.child, List.length_cons, hd] at hl
    contradiction

end Parsip
