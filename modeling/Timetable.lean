import Timetable.Main
import Timetable.Proofs.InhabitedMerge
import Timetable.Proofs.PatternRoundTrip
import Timetable.Proofs.ResumedListing
import Timetable.Proofs.SearchPasses
import Timetable.Proofs.MergeUnion
import Timetable.Proofs.PointQueries
import Timetable.Proofs.ShownFaults
import Timetable.Proofs.LeadingZeros
import Timetable.Proofs.LastDayMark
import Timetable.Proofs.MarkingLoop
import Timetable.Proofs.FailedRules
import Timetable.Proofs.Openings
import Timetable.Proofs.ErrorPlace
import Timetable.Proofs.FieldSettling
import Timetable.Proofs.MonthScan
import Timetable.Proofs.JsonReading
import Timetable.Proofs.ListingOutcome
import Timetable.Proofs.PrintedTree
import Timetable.Proofs.MonthLength
import Timetable.Proofs.SearchRun
import Timetable.Proofs.CarrySignal
