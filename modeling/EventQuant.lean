import EventQuant.ActivationRounds
import EventQuant.Bot
import EventQuant.Database
import EventQuant.Discovery
import EventQuant.Exchange
import EventQuant.Fleet
import EventQuant.FleetChoice
import EventQuant.FleetExposure
import EventQuant.FleetOrders
import EventQuant.FleetWiring
import EventQuant.Knock.AttemptTrace
import EventQuant.Knock.Books
import EventQuant.Knock.CleanFailure
import EventQuant.Knock.Coordinator
import EventQuant.Knock.CoordinatorInvariants
import EventQuant.Knock.Deadline
import EventQuant.Knock.GiveUp
import EventQuant.Knock.Holds
import EventQuant.Knock.MemberSpec
import EventQuant.Knock.OrderBudget
import EventQuant.Knock.Plan
import EventQuant.Knock.PreviewAsks
import EventQuant.Knock.Quiet
import EventQuant.Knock.Registrations
import EventQuant.Knock.ReplyOrder
import EventQuant.Knock.Rounding
import EventQuant.Knock.Schedule
import EventQuant.Knock.Slots
import EventQuant.Knock.TickLoop
import EventQuant.Knock.World
import EventQuant.Library.Channels
import EventQuant.Library.Commits
import EventQuant.Library.Decimals
import EventQuant.Library.Observations
import EventQuant.Library.Precision
import EventQuant.Library.PriceLevels
import EventQuant.Library.Refcount
import EventQuant.Library.Results
import EventQuant.Library.Runs
import EventQuant.Library.Successors
import EventQuant.Library.Sweep
import EventQuant.Library.Table
import EventQuant.Library.Tally
import EventQuant.Library.WorkPool
import EventQuant.Library.Written
import EventQuant.Listings
import EventQuant.LoneSides
import EventQuant.MarketActivation
import EventQuant.MarketStates
import EventQuant.Models
import EventQuant.OrderLedger
import EventQuant.OrderStatus
import EventQuant.Paper
import EventQuant.PaperBooks
import EventQuant.PaperReport
import EventQuant.PaperReserve
import EventQuant.PaperRoutes
import EventQuant.PaperRuns
import EventQuant.PaperSimulator
import EventQuant.PaperTruth
import EventQuant.PaperTurns
import EventQuant.Python.Reading
import EventQuant.Python.Value
import EventQuant.QueueProbe
import EventQuant.QueueWindow
import EventQuant.Service.ActivationQueue
import EventQuant.Service.Adoption
import EventQuant.Service.AmbiguousPair
import EventQuant.Service.Calls
import EventQuant.Service.CancelIsolation
import EventQuant.Service.Cancels
import EventQuant.Service.Crashes
import EventQuant.Service.DeadlineCancel
import EventQuant.Service.Drains
import EventQuant.Service.ExitAdoption
import EventQuant.Service.ExitBudget
import EventQuant.Service.ExitLadder
import EventQuant.Service.Exits
import EventQuant.Service.FleetSigning
import EventQuant.Service.Health
import EventQuant.Service.HealthGate
import EventQuant.Service.LedgerRuns
import EventQuant.Service.Lives
import EventQuant.Service.OrderSight
import EventQuant.Service.PairPlacement
import EventQuant.Service.PendingPairs
import EventQuant.Service.Placement
import EventQuant.Service.PlacementEffects
import EventQuant.Service.Reconciliation
import EventQuant.Service.ReconciliationWorker
import EventQuant.Service.ReserveCap
import EventQuant.Service.Settings
import EventQuant.Service.Shutdown
import EventQuant.Service.SignedOnce
import EventQuant.Service.SignedOrders
import EventQuant.Service.Ticks
import EventQuant.Service.TurnOrder
import EventQuant.Service.TurnOrders
import EventQuant.Service.Turns
import EventQuant.Service.TwoReaders
import EventQuant.Service.UserStream
import EventQuant.Service.VenueList
import EventQuant.Service.WaitingMarkets
import EventQuant.Settlement
import EventQuant.Signing
import EventQuant.Venue.Filling
import EventQuant.Venue.Lanes
import EventQuant.Venue.Reply
import EventQuant.Venue.Scans
import EventQuant.Venue.Streams
