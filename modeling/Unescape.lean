import Unescape.Diagnostic
import Unescape.Settings.Overlay
import Unescape.Settings.Discovery
import Unescape.Toml.Settings
import Unescape.Proofs.AlignedRange
import Unescape.Proofs.ReverseBounds
import Unescape.Proofs.ForwardSpans
import Unescape.Proofs.StrictRefusal
import Unescape.Proofs.FirstUse
import Unescape.Proofs.AcceptedTexts
import Unescape.Proofs.SpelledTexts
import Unescape.Proofs.RangeEnds
import Unescape.Proofs.PositionRoundTrip
import Unescape.Proofs.DiagnosticPlaces
import Unescape.Proofs.PositionRounding
import Unescape.Proofs.OctalLimits
import Unescape.Proofs.IgnoredEntries
import Unescape.Proofs.NearestSettings
import Unescape.Proofs.MalformedReasons
import Unescape.Proofs.InjectionOrder
import Unescape.Proofs.InverseLookup
import Unescape.Proofs.InjectionValidation
import Unescape.Proofs.FeedCount
import Unescape.Proofs.OffsetCuts
import Unescape.Proofs.OutputBuffers
