import RoutePlanner.Route.LocationHistory
import RoutePlanner.Route.LocationStates
import RoutePlanner.Route.RouteHistory
import RoutePlanner.Math.LabelSetting
import RoutePlanner.Route.RouteAdditions
import RoutePlanner.Route.SearchRounds
import RoutePlanner.Route.References
import RoutePlanner.Route.LocationsFile
import RoutePlanner.Route.DataFiles
import RoutePlanner.Messages.MsgLength
import RoutePlanner.Comms.ForeignStreams
import RoutePlanner.Comms.Settling
import RoutePlanner.Comms.SessionStream
import RoutePlanner.Server.ServerMsgHandler
import RoutePlanner.Client.ClientMsgHandler
import RoutePlanner.System.Exchange
import RoutePlanner.System.Phases
import RoutePlanner.Server.FilePlanner
import RoutePlanner.Server.RouteCosts
import RoutePlanner.System.PagingLoop
import RoutePlanner.System.Conversation
import RoutePlanner.System.Downcasts
import RoutePlanner.System.ServerLoop
import RoutePlanner.Server.EditedFiles
import RoutePlanner.System.FreshAnswers
import RoutePlanner.Comms.OwnReads
import RoutePlanner.Comms.Delivery
import RoutePlanner.System.ServedClients
import RoutePlanner.System.Starvation
import RoutePlanner.Server.LostLocations
import RoutePlanner.System.AnsweredRequests
import RoutePlanner.System.ToldCosts
import RoutePlanner.System.AnyServer
import RoutePlanner.System.GrowingFiles
import RoutePlanner.System.SendLoop
